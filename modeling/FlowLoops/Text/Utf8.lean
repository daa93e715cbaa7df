/-!
Bytes as text in UTF-8. Where bytes are no text, each longest start of a character that breaks off,
or else a single byte, stands for one character that is missing.
-/

namespace FlowLoops.Text

def isContinuation (b : UInt8) : Bool := 0x80 ≤ b && b ≤ 0xBF

/-- Whether a byte can follow the first byte of a character of three bytes: no character has a
shorter form, and none is a surrogate. -/
def followsThree (first b : UInt8) : Bool :=
  if first = 0xE0 then 0xA0 ≤ b && b ≤ 0xBF
  else if first = 0xED then 0x80 ≤ b && b ≤ 0x9F
  else isContinuation b

def followsFour (first b : UInt8) : Bool :=
  if first = 0xF0 then 0x90 ≤ b && b ≤ 0xBF
  else if first = 0xF4 then 0x80 ≤ b && b ≤ 0x8F
  else isContinuation b

def extendBy (n : Nat) (b : UInt8) : Nat := n * 64 + b.toNat % 64

/-- The first character of some bytes, none if it is missing, and the bytes after it. -/
def decodeFirst (b : UInt8) (rest : List UInt8) : Option Char × List UInt8 :=
  if b < 0x80 then (some (Char.ofNat b.toNat), rest)
  else if 0xC2 ≤ b && b ≤ 0xDF then
    match rest with
    | c :: after =>
      if isContinuation c then (some (Char.ofNat (extendBy (b.toNat % 32) c)), after)
      else (none, rest)
    | [] => (none, rest)
  else if 0xE0 ≤ b && b ≤ 0xEF then
    match rest with
    | c :: d :: after =>
      if followsThree b c then
        if isContinuation d then
          (some (Char.ofNat (extendBy (extendBy (b.toNat % 16) c) d)), after)
        else (none, d :: after)
      else (none, rest)
    | [c] => if followsThree b c then (none, []) else (none, rest)
    | [] => (none, rest)
  else if 0xF0 ≤ b && b ≤ 0xF4 then
    match rest with
    | c :: d :: e :: after =>
      if followsFour b c then
        if isContinuation d then
          if isContinuation e then
            (some (Char.ofNat (extendBy (extendBy (extendBy (b.toNat % 8) c) d) e)), after)
          else (none, e :: after)
        else (none, d :: e :: after)
      else (none, rest)
    | [c, d] =>
      if followsFour b c then if isContinuation d then (none, []) else (none, [d])
      else (none, rest)
    | [c] => if followsFour b c then (none, []) else (none, rest)
    | [] => (none, rest)
  else (none, rest)

theorem length_decodeFirst (b : UInt8) (rest : List UInt8) :
    (decodeFirst b rest).2.length ≤ rest.length := by
  unfold decodeFirst
  repeat' split
  all_goals simp only [List.length_cons, List.length_nil]
  all_goals omega

def decode : List UInt8 → List (Option Char)
  | [] => []
  | b :: rest => (decodeFirst b rest).1 :: decode (decodeFirst b rest).2
termination_by bytes => bytes.length
decreasing_by
  have := length_decodeFirst b rest
  simp only [List.length_cons]
  omega

def ofBytes? (bytes : List UInt8) : Option (List Char) := (decode bytes).mapM id

/-- The text of some bytes, with a replacement character for each that is missing. -/
def ofBytesLossy (bytes : List UInt8) : String :=
  String.ofList ((decode bytes).map fun c => c.getD (Char.ofNat 0xFFFD))

def toBytes (s : String) : List UInt8 := s.toUTF8.toList

end FlowLoops.Text
