import FlowLoops.Json.Record
import FlowLoops.Json.Value
import Mathlib.Data.List.Basic

/-! The grammar of JSON. Values are trees whose leaves are spelled as they stand in a text; a tree is
a row of tokens, and a text of it has those tokens with blanks around them. -/

namespace FlowLoops.Json

structure HexDigit where
  char : Char
  listed : char ∈ ['0', '1', '2', '3', '4', '5', '6', '7', '8', '9', 'a', 'b', 'c', 'd', 'e', 'f',
    'A', 'B', 'C', 'D', 'E', 'F']

def HexDigit.value (d : HexDigit) : Nat :=
  ['0', '1', '2', '3', '4', '5', '6', '7', '8', '9', 'a', 'b', 'c', 'd', 'e', 'f'].idxOf
    d.char.toLower

def shortEscapes : List (Char × Char) :=
  [('"', '"'), ('\\', '\\'), ('/', '/'), ('b', Char.ofNat 8), ('f', Char.ofNat 12), ('n', '\n'),
    ('r', '\r'), ('t', '\t')]

theorem ne_u_of_listed {letter c : Char} (listed : (letter, c) ∈ shortEscapes) : letter ≠ 'u' := by
  have each : ∀ e ∈ shortEscapes, e.1 ≠ 'u' := by decide
  exact each _ listed

inductive Piece where
  | plain (c : Char) (clear : c ≠ '"' ∧ c ≠ '\\' ∧ 32 ≤ c.toNat)
  | short (letter meaning : Char) (listed : (letter, meaning) ∈ shortEscapes)
  | hex (a b c d : HexDigit)

namespace Piece

def text : Piece → List Char
  | plain c _ => [c]
  | short letter _ _ => ['\\', letter]
  | hex a b c d => ['\\', 'u', a.char, b.char, c.char, d.char]

def unit (a b c d : HexDigit) : Nat := ((a.value * 16 + b.value) * 16 + c.value) * 16 + d.value

def High (n : Nat) : Prop := n / 0x400 = 0x36

def Low (n : Nat) : Prop := n / 0x400 = 0x37

instance (n : Nat) : Decidable (High n) := inferInstanceAs (Decidable (_ = _))

instance (n : Nat) : Decidable (Low n) := inferInstanceAs (Decidable (_ = _))

theorem high_iff {n : Nat} : High n ↔ 0xD800 ≤ n ∧ n ≤ 0xDBFF := by
  unfold High
  omega

theorem low_iff {n : Nat} : Low n ↔ 0xDC00 ≤ n ∧ n ≤ 0xDFFF := by
  unfold Low
  omega

def joined (high low : Nat) : Char :=
  Char.ofNat ((high - 0xD800) * 0x400 + (low - 0xDC00) + 0x10000)

/-- The characters that pieces stand for, if each surrogate among them is half of a pair. -/
def chars? : List Piece → Option (List Char)
  | [] => some []
  | plain c _ :: rest => (chars? rest).map (c :: ·)
  | short _ c _ :: rest => (chars? rest).map (c :: ·)
  | hex a b c d :: rest =>
    if Low (unit a b c d) then none
    else if High (unit a b c d) then
      match rest with
      | hex a' b' c' d' :: more =>
        if Low (unit a' b' c' d') then
          (chars? more).map (joined (unit a b c d) (unit a' b' c' d') :: ·)
        else none
      | _ => none
    else (chars? rest).map (Char.ofNat (unit a b c d) :: ·)

def Spell (ps : List Piece) (s : String) : Prop := chars? ps = some s.toList

instance (ps : List Piece) (s : String) : Decidable (Spell ps s) :=
  inferInstanceAs (Decidable (_ = _))

end Piece

def Digits (ds : List Char) : Prop := ds ≠ [] ∧ ∀ c ∈ ds, c.isDigit

inductive IsFraction : List Char → Prop
  | none : IsFraction []
  | some {ds : List Char} (digits : Digits ds) : IsFraction ('.' :: ds)

inductive IsExponent : List Char → Prop
  | none : IsExponent []
  | some {e : Char} {sign ds : List Char} (letter : e = 'e' ∨ e = 'E')
    (signed : sign = [] ∨ sign = ['+'] ∨ sign = ['-']) (digits : Digits ds) :
    IsExponent (e :: sign ++ ds)

/-- The text of a number. Its whole part has no zero in front of other digits. -/
inductive IsNumeral : List Char → Prop
  | intro {sign whole fraction exponent : List Char} (signed : sign = [] ∨ sign = ['-'])
    (digits : Digits whole) (lead : whole.head? = some '0' → whole = ['0'])
    (hf : IsFraction fraction) (he : IsExponent exponent) :
    IsNumeral (sign ++ (whole ++ (fraction ++ exponent)))

structure Numeral where
  text : List Char
  valid : IsNumeral text

inductive Token where
  | opening (b : Bracket)
  | closing (b : Bracket)
  | comma
  | colon
  | null
  | bool (value : Bool)
  | number (n : Numeral)
  | string (ps : List Piece)

namespace Token

def text : Token → List Char
  | opening .list => ['[']
  | opening .object => ['\x7b']
  | closing b => [b.close]
  | comma => [',']
  | colon => [':']
  | null => ['n', 'u', 'l', 'l']
  | bool true => ['t', 'r', 'u', 'e']
  | bool false => ['f', 'a', 'l', 's', 'e']
  | number n => n.text
  | string ps => '"' :: (ps.flatMap Piece.text ++ ['"'])

end Token

/-- A value as it stands in a text, blanks apart. -/
inductive Tree where
  | null
  | bool (value : Bool)
  | number (n : Numeral)
  | string (ps : List Piece)
  | list (items : List Tree)
  | object (members : List (List Piece × Tree))

abbrev Member := List Piece × Tree

namespace Tree

/-- To show something of all trees, show it of a list and of an object whose parts have it. -/
@[elab_as_elim]
theorem induct {motive : Tree → Prop} (null : motive .null) (bool : ∀ b, motive (.bool b))
    (number : ∀ n, motive (.number n)) (string : ∀ ps, motive (.string ps))
    (list : ∀ items, (∀ v ∈ items, motive v) → motive (.list items))
    (object : ∀ members, (∀ m ∈ members, motive m.2) → motive (.object members)) (v : Tree) :
    motive v := by
  apply Tree.rec (motive_1 := motive) (motive_2 := fun items => ∀ v ∈ items, motive v)
    (motive_3 := fun members => ∀ m ∈ members, motive m.2) (motive_4 := fun m => motive m.2)
  · exact null
  · exact bool
  · exact number
  · exact string
  · exact list
  · exact object
  · exact fun v hv => absurd hv List.not_mem_nil
  · exact fun v rest first others => List.forall_mem_cons.mpr ⟨first, others⟩
  · exact fun m hm => absurd hm List.not_mem_nil
  · exact fun m rest first others => List.forall_mem_cons.mpr ⟨first, others⟩
  · exact fun key v shown => shown

mutual

def tokens : Tree → List Token
  | null => [.null]
  | bool b => [.bool b]
  | number n => [.number n]
  | string ps => [.string ps]
  | list [] => [.opening .list, .closing .list]
  | list (v :: rest) => .opening .list :: (v.tokens ++ moreItems rest)
  | object [] => [.opening .object, .closing .object]
  | object ((key, v) :: rest) =>
    .opening .object :: .string key :: .colon :: (v.tokens ++ moreMembers rest)

def moreItems : List Tree → List Token
  | [] => [.closing .list]
  | v :: rest => .comma :: (v.tokens ++ moreItems rest)

def moreMembers : List Member → List Token
  | [] => [.closing .object]
  | (key, v) :: rest => .comma :: .string key :: .colon :: (v.tokens ++ moreMembers rest)

end

def inList : List Tree → List Token
  | [] => [.closing .list]
  | v :: rest => v.tokens ++ moreItems rest

def inObject : List Member → List Token
  | [] => [.closing .object]
  | (key, v) :: rest => .string key :: .colon :: (v.tokens ++ moreMembers rest)

theorem tokens_list (items : List Tree) : (list items).tokens = .opening .list :: inList items := by
  cases items <;> rw [tokens, inList]

theorem tokens_object (members : List Member) :
    (object members).tokens = .opening .object :: inObject members := by
  cases members <;> rw [tokens, inObject]

end Tree

inductive Laid : List Token → List Char → Prop
  | nil {bs : List Char} (blank : ∀ b ∈ bs, isBlank b) : Laid [] bs
  | cons {bs rest : List Char} {ts : List Token} (t : Token) (blank : ∀ b ∈ bs, isBlank b)
    (laid : Laid ts rest) : Laid (t :: ts) (bs ++ (t.text ++ rest))

def IsText (v : Tree) (text : List Char) : Prop := Laid v.tokens text

end FlowLoops.Json
