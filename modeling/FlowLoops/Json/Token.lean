import FlowLoops.Json.Reject

/-!
The tokens of JSON read off the front of a text: blanks, fixed words, and strings. Each reader gives
what it read and what is left.
-/

namespace FlowLoops.Json

def isBlank (c : Char) : Bool := c = ' ' || c = '\n' || c = '\t' || c = '\r'

def skipBlanks (cs : List Char) : List Char := cs.dropWhile isBlank

def word : List Char → List Char → Except Reject (List Char)
  | [], cs => .ok cs
  | _ :: _, [] => .error (.before .endInValue [])
  | w :: ws, c :: cs => if c = w then word ws cs else .error (.past .noWord (c :: cs))

def hexValue? (c : Char) : Option Nat :=
  if '0' ≤ c && c ≤ '9' then some (c.toNat - 48)
  else if 'a' ≤ c && c ≤ 'f' then some (c.toNat - 87)
  else if 'A' ≤ c && c ≤ 'F' then some (c.toNat - 55)
  else none

def hexQuad? (a b c d : Char) : Option Nat := do
  return (((← hexValue? a) * 16 + (← hexValue? b)) * 16 + (← hexValue? c)) * 16 + (← hexValue? d)

def noHexQuad (cs : List Char) : Reject :=
  if byteLength cs < 4 then ⟨.endInString, 0⟩ else ⟨.badEscape, byteLength cs - 4⟩

def hexQuad (cs : List Char) : Except Reject (Nat × List Char) :=
  match cs with
  | a :: b :: c :: d :: rest =>
    match hexQuad? a b c d with
    | some n => .ok (n, rest)
    | none => .error (noHexQuad cs)
  | _ => .error (noHexQuad cs)

def lowSurrogate (high : Nat) (cs : List Char) : Except Reject (Char × List Char) :=
  match cs with
  | [] => .error (.before .endInString cs)
  | '\\' :: rest =>
    match rest with
    | [] => .error (.before .endInString rest)
    | 'u' :: digits =>
      match hexQuad digits with
      | .error r => .error r
      | .ok (low, rest) =>
        if 0xDC00 ≤ low ∧ low ≤ 0xDFFF then
          .ok (Char.ofNat ((high - 0xD800) * 0x400 + (low - 0xDC00) + 0x10000), rest)
        else .error (.before .loneSurrogate rest)
    | _ :: _ => .error (.past .cutSurrogate rest)
  | _ :: _ => .error (.past .cutSurrogate cs)

/-- The character of a hexadecimal escape, after its `u`. A character beyond the first 65536 is
written as a pair of surrogates, and half a pair is no character. -/
def hexEscape (cs : List Char) : Except Reject (Char × List Char) :=
  match hexQuad cs with
  | .error r => .error r
  | .ok (n, rest) =>
    if 0xDC00 ≤ n ∧ n ≤ 0xDFFF then .error (.before .loneSurrogate rest)
    else if 0xD800 ≤ n ∧ n ≤ 0xDBFF then lowSurrogate n rest
    else .ok (Char.ofNat n, rest)

def shortEscape? (c : Char) : Option Char :=
  if c = '"' ∨ c = '\\' ∨ c = '/' then some c
  else if c = 'b' then some (Char.ofNat 8)
  else if c = 'f' then some (Char.ofNat 12)
  else if c = 'n' then some '\n'
  else if c = 'r' then some '\r'
  else if c = 't' then some '\t'
  else none

def escape (cs : List Char) : Except Reject (Char × List Char) :=
  match cs with
  | [] => .error (.before .endInString [])
  | 'u' :: rest => hexEscape rest
  | c :: rest =>
    match shortEscape? c with
    | some e => .ok (e, rest)
    | none => .error (.past .badEscape cs)

theorem length_hexQuad {cs rest : List Char} {n : Nat} (h : hexQuad cs = .ok (n, rest)) :
    rest.length + 4 = cs.length := by
  unfold hexQuad at h
  split at h
  · split at h
    · simp only [Except.ok.injEq, Prod.mk.injEq] at h
      simp [← h.2]
    · simp at h
  · simp at h

theorem length_lowSurrogate {high : Nat} {cs rest : List Char} {c : Char}
    (h : lowSurrogate high cs = .ok (c, rest)) : rest.length < cs.length := by
  unfold lowSurrogate at h
  split at h
  · simp at h
  · split at h
    · simp at h
    next digits =>
      split at h
      · simp at h
      next low left hq =>
        split at h
        · simp only [Except.ok.injEq, Prod.mk.injEq] at h
          have := length_hexQuad hq
          simp only [← h.2, List.length_cons]
          omega
        · simp at h
    · simp at h
  · simp at h

theorem length_hexEscape {cs rest : List Char} {c : Char} (h : hexEscape cs = .ok (c, rest)) :
    rest.length < cs.length := by
  unfold hexEscape at h
  split at h
  · simp at h
  next n left hq =>
    have := length_hexQuad hq
    split at h
    · simp at h
    · split at h
      · have := length_lowSurrogate h
        omega
      · simp only [Except.ok.injEq, Prod.mk.injEq] at h
        simp only [← h.2]
        omega

theorem length_escape {cs rest : List Char} {c : Char} (h : escape cs = .ok (c, rest)) :
    rest.length < cs.length := by
  unfold escape at h
  split at h
  · simp at h
  · have := length_hexEscape h
    simp only [List.length_cons]
    omega
  · split at h
    · simp only [Except.ok.injEq, Prod.mk.injEq] at h
      simp [← h.2]
    · simp at h

/-- A string after its opening quote, with the characters read so far, latest first. -/
def stringFrom (read : List Char) (cs : List Char) : Except Reject (String × List Char) :=
  match cs with
  | [] => .error (.before .endInString [])
  | c :: rest =>
    if c = '"' then .ok (String.ofList read.reverse, rest)
    else if c = '\\' then
      match _h : escape rest with
      | .error r => .error r
      | .ok (e, left) => stringFrom (e :: read) left
    else if c.toNat < 32 then .error (.past .controlCharacter cs)
    else stringFrom (c :: read) rest
termination_by cs.length
decreasing_by
  · have := length_escape _h
    simp only [List.length_cons]
    omega
  · simp

def string (cs : List Char) : Except Reject (String × List Char) := stringFrom [] cs

theorem length_stringFrom {read cs rest : List Char} {s : String}
    (h : stringFrom read cs = .ok (s, rest)) : rest.length < cs.length := by
  fun_induction stringFrom read cs with
  | case1 => simp at h
  | case2 read rest' =>
    simp only [Except.ok.injEq, Prod.mk.injEq] at h
    simp [← h.2]
  | case3 => simp at h
  | case4 read rest' e left he _ ih =>
    have := ih h
    have := length_escape he
    simp only [List.length_cons]
    omega
  | case5 => simp at h
  | case6 read c rest' _ _ _ ih =>
    have := ih h
    simp only [List.length_cons]
    omega

theorem length_string {cs rest : List Char} {s : String} (h : string cs = .ok (s, rest)) :
    rest.length < cs.length := length_stringFrom h

theorem length_skipBlanks (cs : List Char) : (skipBlanks cs).length ≤ cs.length :=
  (List.dropWhile_sublist isBlank).length_le

theorem length_word {w cs rest : List Char} (h : word w cs = .ok rest) :
    rest.length ≤ cs.length := by
  induction w generalizing cs with
  | nil =>
    simp only [word, Except.ok.injEq] at h
    simp [h]
  | cons x ws ih =>
    cases cs with
    | nil => simp [word] at h
    | cons c cs =>
      simp only [word] at h
      split at h
      · have := ih h
        simp only [List.length_cons]
        omega
      · simp at h

end FlowLoops.Json
