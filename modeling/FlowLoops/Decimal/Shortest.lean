/-!
The shortest decimal text of a number in binary floating point with 64 bits: the fewest digits that
only this number is nearest to, and of those the ones nearest to it. The numbers that round to a
given one fill the interval between the midpoints to its neighbours, whose ends belong to it when
its significand is even; all of this is done in whole numbers.
-/

namespace FlowLoops.Decimal

structure Ratio where
  num : Nat
  den : Nat

namespace Ratio

def dyadic (n : Nat) (q : Int) : Ratio :=
  if 0 ≤ q then ⟨n * Nat.pow 2 q.toNat, 1⟩ else ⟨n, Nat.pow 2 (-q).toNat⟩

/-- The fraction measured in units of `10 ^ k`. -/
def per (r : Ratio) (k : Int) : Ratio :=
  if 0 ≤ k then ⟨r.num, r.den * Nat.pow 10 k.toNat⟩ else ⟨r.num * Nat.pow 10 (-k).toNat, r.den⟩

/-- The `p` with `10 ^ (p - 1) ≤ r < 10 ^ p`, for a positive fraction. -/
def magnitude (r : Ratio) : Int :=
  let p : Int := (Nat.toDigits 10 r.num).length - (Nat.toDigits 10 r.den).length
  let unit := r.per p
  if unit.den ≤ unit.num then p + 1 else p

end Ratio

/-- A positive number and the interval of those that round to it, all over one power of two. -/
structure Rounding where
  low : Ratio
  value : Ratio
  high : Ratio
  /-- whether the ends of the interval round to the number -/
  closed : Bool

/-- The interval of the number with the given exponent and fraction fields. Below a power of two the
next number is only half as far away. -/
def Rounding.ofFields (exponent fraction : Nat) : Rounding :=
  let m := if exponent = 0 then fraction else fraction + Nat.pow 2 52
  let q : Int := (if exponent = 0 then 1 else (exponent : Int)) - 1075 - 2
  let below := if fraction = 0 ∧ 1 < exponent then 1 else 2
  { low := .dyadic (4 * m - below) q
    value := .dyadic (4 * m) q
    high := .dyadic (4 * m + 2) q
    closed := m % 2 = 0 }

namespace Rounding

def holds (r : Rounding) (n : Nat) (k : Int) : Bool :=
  let low := r.low.per k
  let high := r.high.per k
  if r.closed then low.num ≤ n * low.den && n * high.den ≤ high.num
  else low.num < n * low.den && n * high.den < high.num

/-- The neighbour of the number on the grid of `10 ^ k`, if one is in the interval: the nearer of
two, and the even one of two equally near. -/
def neighbour? (r : Rounding) (k : Int) : Option Nat :=
  let v := r.value.per k
  let n := v.num / v.den
  let twice := 2 * (v.num % v.den)
  match r.holds n k, r.holds (n + 1) k with
  | true, true =>
    some (if twice < v.den ∨ (twice = v.den ∧ n % 2 = 0) then n else n + 1)
  | true, false => some n
  | false, true => some (n + 1)
  | false, false => none

def shortest (r : Rounding) : Nat × Int :=
  let p := r.value.magnitude
  let grids := (List.range 17).map fun d : Nat => p - ((d : Int) + 1)
  (grids.findSome? fun k => (r.neighbour? k).map (·, k)).getD (0, 0)

end Rounding

def trimmed (n : Nat) : List Char × Nat :=
  let digits := (Nat.toDigits 10 n).reverse
  let zeros := (digits.takeWhile (· = '0')).length
  ((digits.drop zeros).reverse, zeros)

/-- Lays out digits whose first one stands at the place of `10 ^ exponent`. From `10 ^ -5` up to
below `10 ^ 16` the number is written in full, with at least one digit on both sides of the point;
otherwise with one digit before the point and a signed power of ten. -/
def layout (digits : List Char) (exponent : Int) : List Char :=
  if 0 ≤ exponent ∧ exponent ≤ 15 then
    let size := exponent.toNat + 1
    let whole := digits.take size
    let rest := digits.drop size
    whole ++ List.replicate (size - whole.length) '0' ++ '.' :: (if rest = [] then ['0'] else rest)
  else if -5 ≤ exponent ∧ exponent < 0 then
    '0' :: '.' :: List.replicate ((-exponent).toNat - 1) '0' ++ digits
  else
    let rest := digits.drop 1
    digits.take 1 ++ (if rest = [] then [] else '.' :: rest) ++
      'e' :: (if 0 ≤ exponent then '+' else '-') :: Nat.toDigits 10 exponent.natAbs

def plain (bits : UInt64) : String :=
  let sign := if bits.toNat / Nat.pow 2 63 = 1 then ['-'] else []
  let exponent := bits.toNat / Nat.pow 2 52 % Nat.pow 2 11
  let fraction := bits.toNat % Nat.pow 2 52
  if exponent = 0 ∧ fraction = 0 then String.ofList (sign ++ ['0', '.', '0'])
  else
    let (n, k) := (Rounding.ofFields exponent fraction).shortest
    let (digits, zeros) := trimmed n
    String.ofList (sign ++ layout digits (k + zeros + (digits.length - 1)))

end FlowLoops.Decimal
