import FlowLoops.Json.Token

/-!
Numbers, read where another kind of value was expected, to say which number was found. A whole
number of 64 bits is an integer. Any other is a float, computed from the digits that fit 64 bits
and a power of ten, and one beyond the largest float is rejected.
-/

namespace FlowLoops.Json

def digitValue (c : Char) : Nat := c.toNat - 48

def startsWithDigit (cs : List Char) : Bool := (cs.head?).any Char.isDigit

/-- Takes up digits as long as the number stays below `2 ^ 64`, and counts them. -/
def absorb (n count : Nat) : List Char → Nat × Nat × List Char
  | [] => (n, count, [])
  | c :: rest =>
    if c.isDigit && n * 10 + digitValue c < Nat.pow 2 64 then
      absorb (n * 10 + digitValue c) (count + 1) rest
    else (n, count, c :: rest)

def powerOfTen (n : Nat) : Float := Float.ofScientific 1 false n

/-- A float scaled by a power of ten, if the result is finite. Powers beyond the range of floats are
taken off in steps. -/
def scaled (f : Float) (e : Int) : Option Float :=
  if 308 < e then if f == 0 then some f else none
  else if 0 ≤ e then
    let product := f * powerOfTen e.toNat
    if product.isInf then none else some product
  else if -308 ≤ e then some (f / powerOfTen (-e).toNat)
  else if f == 0 then some f
  else scaled (f / powerOfTen 308) (e + 308)
termination_by (-e).toNat

def floatFound (negative : Bool) (n : Nat) (e : Int) (rest : List Char) :
    Except Reject (Found × List Char) :=
  match scaled n.toUInt64.toFloat e with
  | none => .error (.before .numberTooLarge rest)
  | some f => .ok (.float (if negative then -f else f).toBits, rest)

/-- An integer, or a float if there is no such integer of 64 bits. Zero has no negative. -/
def integerFound (negative : Bool) (n : Nat) : Found :=
  if !negative then .integer n
  else if n = 0 ∨ Nat.pow 2 63 < n then .float (-n.toUInt64.toFloat).toBits
  else .integer (-(n : Int))

/-- Takes up the digits of an exponent. One that does not fit 32 bits is none, and is left at the
digit after the one that shows it. -/
def absorbExponent (n : Nat) : List Char → Option Nat × List Char
  | [] => (some n, [])
  | c :: rest =>
    if c.isDigit then
      if n * 10 + digitValue c < Nat.pow 2 31 then absorbExponent (n * 10 + digitValue c) rest
      else (none, rest)
    else (some n, c :: rest)

def exponentDigits (negative : Bool) (n : Nat) (e : Int) (down : Bool) (cs : List Char) :
    Except Reject (Found × List Char) :=
  match cs with
  | [] => .error (.before .endInValue cs)
  | c :: rest =>
    if c.isDigit then
      match absorbExponent (digitValue c) rest with
      | (some x, left) => floatFound negative n (if down then e - x else e + x) left
      | (none, left) =>
        if n ≠ 0 ∧ !down then .error (.before .numberTooLarge left)
        else floatFound negative 0 0 (left.dropWhile Char.isDigit)
    else .error (.past .badNumber cs)

def exponentFound (negative : Bool) (n : Nat) (e : Int) (cs : List Char) :
    Except Reject (Found × List Char) :=
  match cs with
  | '+' :: rest => exponentDigits negative n e false rest
  | '-' :: rest => exponentDigits negative n e true rest
  | _ => exponentDigits negative n e false cs

def fractionFound (negative : Bool) (n : Nat) (e : Int) (cs : List Char) :
    Except Reject (Found × List Char) :=
  if !startsWithDigit cs then
    .error (if cs = [] then .past .endInValue cs else .past .badNumber cs)
  else
    let (m, count, left) := absorb n 0 cs
    match left.dropWhile Char.isDigit with
    | 'e' :: rest | 'E' :: rest => exponentFound negative m (e - count) rest
    | rest => floatFound negative m (e - count) rest

def numberFound (negative : Bool) (cs : List Char) : Except Reject (Found × List Char) :=
  match cs with
  | [] => .error (.before .endInValue cs)
  | c :: rest =>
    if c = '0' ∧ startsWithDigit rest then .error (.past .badNumber rest)
    else if c.isDigit then
      let (n, _, left) := absorb 0 0 cs
      let beyond := (left.takeWhile Char.isDigit).length
      match left.dropWhile Char.isDigit with
      | '.' :: rest => fractionFound negative n beyond rest
      | 'e' :: rest | 'E' :: rest => exponentFound negative n beyond rest
      | rest =>
        if beyond = 0 then .ok (integerFound negative n, rest)
        else floatFound negative n beyond rest
    else .error (.past .badNumber cs)

/-- What a text that starts with neither blank nor its end holds, with what follows it. Lists and
objects are not read any further. -/
def found (cs : List Char) : Except Reject (Found × List Char) :=
  match cs with
  | [] => .error (.past .noValue cs)
  | c :: rest =>
    if c = 'n' then (word ['u', 'l', 'l'] rest).map (.null, ·)
    else if c = 't' then (word ['r', 'u', 'e'] rest).map (.boolean true, ·)
    else if c = 'f' then (word ['a', 'l', 's', 'e'] rest).map (.boolean false, ·)
    else if c = '-' then numberFound true rest
    else if c.isDigit then numberFound false cs
    else if c = '"' then (string rest).map fun (s, left) => (.string s, left)
    else if c = '[' then .ok (.list, cs)
    else if c = '\x7b' then .ok (.object, cs)
    else .error (.past .noValue cs)

def mismatch (expected : String) (cs : List Char) : Reject :=
  match found cs with
  | .error r => r
  | .ok (f, rest) => .before (.wrongType f expected) rest

end FlowLoops.Json
