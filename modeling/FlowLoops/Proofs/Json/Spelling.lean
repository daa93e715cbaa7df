import FlowLoops.Proofs.Json.Tree
import Mathlib.Data.List.Basic

/-! Strings and their spellings. What reads a string accepts just the ways to write it, and what reads
over one accepts just the rows of pieces. -/

namespace FlowLoops.Json

theorem HexDigit.hexValue?_char (d : HexDigit) : hexValue? d.char = some d.value := by
  have each : ['0', '1', '2', '3', '4', '5', '6', '7', '8', '9', 'a', 'b', 'c', 'd', 'e', 'f',
      'A', 'B', 'C', 'D', 'E', 'F'].all fun c => hexValue? c =
        some (['0', '1', '2', '3', '4', '5', '6', '7', '8', '9', 'a', 'b', 'c', 'd', 'e',
          'f'].idxOf c.toLower) := by
    decide
  exact of_decide_eq_true (List.all_eq_true.mp each d.char d.listed)

theorem toNat_lt_of_hexValue? {c : Char} {n : Nat} (h : hexValue? c = some n) : c.toNat < 128 := by
  have le : ∀ d : Char, c ≤ d → c.toNat ≤ d.toNat := fun d hd => hd
  unfold hexValue? at h
  simp only [Bool.and_eq_true, decide_eq_true_eq] at h
  split at h
  next within => exact Nat.lt_of_le_of_lt (le '9' within.2) (by decide)
  split at h
  next within => exact Nat.lt_of_le_of_lt (le 'f' within.2) (by decide)
  split at h
  next within => exact Nat.lt_of_le_of_lt (le 'F' within.2) (by decide)
  · cases h

theorem exists_hexDigit {c : Char} {n : Nat} (h : hexValue? c = some n) :
    ∃ d : HexDigit, d.char = c ∧ d.value = n := by
  have small : ∀ k < 128, (hexValue? (Char.ofNat k)).isSome →
      Char.ofNat k ∈ ['0', '1', '2', '3', '4', '5', '6', '7', '8', '9', 'a', 'b', 'c', 'd', 'e',
        'f', 'A', 'B', 'C', 'D', 'E', 'F'] := by
    decide
  have listed := small c.toNat (toNat_lt_of_hexValue? h)
  rw [Char.ofNat_toNat, h] at listed
  refine ⟨⟨c, listed rfl⟩, rfl, ?_⟩
  have value := HexDigit.hexValue?_char ⟨c, listed rfl⟩
  exact Option.some.inj (value.symm.trans h)

theorem hexQuad_digits (a b c d : HexDigit) (rest : List Char) :
    hexQuad (a.char :: b.char :: c.char :: d.char :: rest) = .ok (Piece.unit a b c d, rest) := by
  unfold hexQuad hexQuad?
  simp only [a.hexValue?_char, b.hexValue?_char, c.hexValue?_char, d.hexValue?_char]
  rfl

theorem exists_digits {cs rest : List Char} {n : Nat} (h : hexQuad cs = .ok (n, rest)) :
    ∃ a b c d : HexDigit, cs = a.char :: b.char :: c.char :: d.char :: rest ∧
      n = Piece.unit a b c d := by
  unfold hexQuad at h
  split at h
  next a b c d more =>
    split at h
    next m read =>
      obtain ⟨rfl, rfl⟩ := Prod.mk.inj (Except.ok.inj h)
      unfold hexQuad? at read
      simp only [Option.pure_def, Option.bind_eq_bind, Option.bind_eq_some_iff,
        Option.some.injEq] at read
      obtain ⟨w, hw, x, hx, y, hy, z, hz, rfl⟩ := read
      obtain ⟨a, rfl, rfl⟩ := exists_hexDigit hw
      obtain ⟨b, rfl, rfl⟩ := exists_hexDigit hx
      obtain ⟨c, rfl, rfl⟩ := exists_hexDigit hy
      obtain ⟨d, rfl, rfl⟩ := exists_hexDigit hz
      exact ⟨a, b, c, d, rfl, rfl⟩
    · cases h
  · cases h

theorem shortEscape?_eq_some_iff {letter c : Char} :
    shortEscape? letter = some c ↔ (letter, c) ∈ shortEscapes := by
  constructor
  · intro h
    unfold shortEscape? at h
    split_ifs at h with same
    · obtain rfl := Option.some.inj h
      rcases same with rfl | rfl | rfl <;> decide
    all_goals
      obtain rfl := Option.some.inj h
      subst letter
      decide
  · intro listed
    have each : ∀ e ∈ shortEscapes, shortEscape? e.1 = some e.2 := by decide
    exact each _ listed

section Escape
variable {letter c : Char} {rest : List Char}

theorem escape_short (listed : (letter, c) ∈ shortEscapes) (rest : List Char) :
    escape (letter :: rest) = .ok (c, rest) := by
  unfold escape
  split
  next h => cases h
  next h => exact absurd (List.cons.inj h).1 (ne_u_of_listed listed)
  next h =>
    obtain ⟨rfl, rfl⟩ := List.cons.inj h
    rw [shortEscape?_eq_some_iff.mpr listed]

theorem chars?_hex {a b c d : HexDigit} (high : ¬ Piece.High (Piece.unit a b c d))
    (low : ¬ Piece.Low (Piece.unit a b c d)) (more : List Piece) :
    Piece.chars? (.hex a b c d :: more) =
      (Piece.chars? more).map (Char.ofNat (Piece.unit a b c d) :: ·) := by
  rw [Piece.chars?.eq_def]
  exact (if_neg low).trans (if_neg high)

theorem escape_hex {a b c d : HexDigit} (high : ¬ Piece.High (Piece.unit a b c d))
    (low : ¬ Piece.Low (Piece.unit a b c d)) (rest : List Char) :
    escape ('u' :: a.char :: b.char :: c.char :: d.char :: rest) =
      .ok (Char.ofNat (Piece.unit a b c d), rest) := by
  show hexEscape _ = _
  unfold hexEscape
  simp only [hexQuad_digits, ← Piece.low_iff, ← Piece.high_iff]
  rw [if_neg low, if_neg high]

theorem not_low_of_high {n : Nat} (high : Piece.High n) : ¬ Piece.Low n := by
  intro low
  have same : 0x36 = 0x37 := high.symm.trans low
  cases same

theorem chars?_pair {a b c d a' b' c' d' : HexDigit} (high : Piece.High (Piece.unit a b c d))
    (low : Piece.Low (Piece.unit a' b' c' d')) (more : List Piece) :
    Piece.chars? (.hex a b c d :: .hex a' b' c' d' :: more) = (Piece.chars? more).map
      (Piece.joined (Piece.unit a b c d) (Piece.unit a' b' c' d') :: ·) := by
  rw [Piece.chars?.eq_def]
  exact (if_neg (not_low_of_high high)).trans ((if_pos high).trans (if_pos low))

theorem lowSurrogate_digits {a b c d : HexDigit} (low : Piece.Low (Piece.unit a b c d))
    (high : Nat) (rest : List Char) :
    lowSurrogate high ('\\' :: 'u' :: a.char :: b.char :: c.char :: d.char :: rest) =
      .ok (Piece.joined high (Piece.unit a b c d), rest) := by
  unfold lowSurrogate
  simp only [hexQuad_digits, ← Piece.low_iff]
  exact if_pos low

theorem escape_pair {a b c d a' b' c' d' : HexDigit} (high : Piece.High (Piece.unit a b c d))
    (low : Piece.Low (Piece.unit a' b' c' d')) (rest : List Char) :
    escape ('u' :: a.char :: b.char :: c.char :: d.char ::
        '\\' :: 'u' :: a'.char :: b'.char :: c'.char :: d'.char :: rest) =
      .ok (Piece.joined (Piece.unit a b c d) (Piece.unit a' b' c' d'), rest) := by
  have second := lowSurrogate_digits low (Piece.unit a b c d) rest
  show hexEscape _ = _
  unfold hexEscape
  simp only [hexQuad_digits, ← Piece.low_iff, ← Piece.high_iff]
  rw [if_neg (not_low_of_high high), if_pos high, second]

theorem exists_lowSurrogate {high : Nat} {cs left : List Char}
    (h : lowSurrogate high cs = .ok (c, left)) : ∃ a b c' d,
      cs = Piece.text (.hex a b c' d) ++ left ∧ Piece.Low (Piece.unit a b c' d) ∧
        c = Piece.joined high (Piece.unit a b c' d) := by
  unfold lowSurrogate at h
  split at h
  · cases h
  · split at h
    · cases h
    next digits =>
      split at h
      · cases h
      next n left' quad =>
        obtain ⟨a, b, c', d, rfl, rfl⟩ := exists_digits quad
        split at h
        next low =>
          obtain ⟨rfl, rfl⟩ := Prod.mk.inj (Except.ok.inj h)
          exact ⟨a, b, c', d, rfl, Piece.low_iff.mpr low, rfl⟩
        · cases h
    · cases h
  · cases h

theorem exists_hexEscape {cs left : List Char} (h : hexEscape cs = .ok (c, left)) :
    ∃ ps : List Piece, '\\' :: 'u' :: cs = ps.flatMap Piece.text ++ left ∧
      ∀ more chars, Piece.chars? more = some chars →
        Piece.chars? (ps ++ more) = some (c :: chars) := by
  unfold hexEscape at h
  split at h
  · cases h
  next n rest quad =>
    obtain ⟨a, b, c', d, rfl, rfl⟩ := exists_digits quad
    simp only [← Piece.low_iff, ← Piece.high_iff] at h
    split_ifs at h with low high
    · obtain ⟨a', b', c'', d', split, low', shown⟩ := exists_lowSurrogate h
      subst split
      refine ⟨[.hex a b c' d, .hex a' b' c'' d'], rfl, fun more chars spelled => ?_⟩
      show Piece.chars? (.hex a b c' d :: .hex a' b' c'' d' :: more) = _
      rw [chars?_pair high low', spelled, Option.map_some, shown]
    · obtain ⟨rfl, rfl⟩ := Prod.mk.inj (Except.ok.inj h)
      refine ⟨[.hex a b c' d], rfl, fun more chars spelled => ?_⟩
      show Piece.chars? (.hex a b c' d :: more) = _
      rw [chars?_hex high low, spelled, Option.map_some]

/-- An escape that is read is one piece, or two that are a pair. -/
theorem exists_pieces {cs left : List Char} (h : escape cs = .ok (c, left)) :
    ∃ ps : List Piece, '\\' :: cs = ps.flatMap Piece.text ++ left ∧
      ∀ more chars, Piece.chars? more = some chars →
        Piece.chars? (ps ++ more) = some (c :: chars) := by
  unfold escape at h
  split at h
  · cases h
  · exact exists_hexEscape h
  · split at h
    next e known =>
      obtain ⟨rfl, rfl⟩ := Prod.mk.inj (Except.ok.inj h)
      have listed := shortEscape?_eq_some_iff.mp known
      refine ⟨[.short _ e listed], rfl, fun more chars spelled => ?_⟩
      simp only [List.cons_append, List.nil_append, Piece.chars?, spelled, Option.map_some]
    · cases h

end Escape

section Strings
variable {read cs rest : List Char} {ps : List Piece} {s : String}

theorem stringFrom_quote (read rest : List Char) :
    stringFrom read ('"' :: rest) = .ok (String.ofList read.reverse, rest) := by
  rw [stringFrom, if_pos rfl]

theorem stringFrom_plain {c : Char} (clear : c ≠ '"' ∧ c ≠ '\\' ∧ 32 ≤ c.toNat)
    (read rest : List Char) : stringFrom read (c :: rest) = stringFrom (c :: read) rest := by
  have control : ¬ c.toNat < 32 := Nat.not_lt.mpr clear.2.2
  rw [stringFrom, if_neg clear.1, if_neg clear.2.1, if_neg control]

theorem stringFrom_escape {e : Char} {left : List Char} (h : escape rest = .ok (e, left))
    (read : List Char) : stringFrom read ('\\' :: rest) = stringFrom (e :: read) left := by
  have other : ¬ '\\' = '"' := by decide
  have slash : '\\' = '\\' := rfl
  rw [stringFrom, if_neg other, if_pos slash]
  split
  next h' => rw [h] at h'; cases h'
  next h' =>
    rw [h] at h'
    obtain ⟨rfl, rfl⟩ := Prod.mk.inj (Except.ok.inj h')
    rfl

theorem stringFrom_text {chars : List Char} (spelled : Piece.chars? ps = some chars)
    (read rest : List Char) :
    stringFrom read (ps.flatMap Piece.text ++ '"' :: rest) =
      .ok (String.ofList (read.reverse ++ chars), rest) := by
  fun_induction Piece.chars? ps generalizing read chars with
  | case1 =>
    obtain rfl := Option.some.inj spelled
    rw [List.append_nil]
    exact stringFrom_quote read rest
  | case2 c clear more ih =>
    obtain ⟨cs, first, rfl⟩ := Option.map_eq_some_iff.mp spelled
    have shown := stringFrom_plain clear read (more.flatMap Piece.text ++ '"' :: rest)
    refine shown.trans ((ih first (c :: read)).trans ?_)
    rw [List.reverse_cons, List.append_assoc, List.singleton_append]
  | case3 letter c listed more ih =>
    obtain ⟨cs, first, rfl⟩ := Option.map_eq_some_iff.mp spelled
    have shown := stringFrom_escape
      (escape_short listed (more.flatMap Piece.text ++ '"' :: rest)) read
    refine shown.trans ((ih first (c :: read)).trans ?_)
    rw [List.reverse_cons, List.append_assoc, List.singleton_append]
  | case4 => cases spelled
  | case5 a b c d low high a' b' c' d' more low' ih =>
    obtain ⟨cs, first, rfl⟩ := Option.map_eq_some_iff.mp spelled
    have shown := stringFrom_escape
      (escape_pair high low' (more.flatMap Piece.text ++ '"' :: rest)) read
    refine shown.trans ((ih first (_ :: read)).trans ?_)
    rw [List.reverse_cons, List.append_assoc, List.singleton_append]
  | case6 => cases spelled
  | case7 => cases spelled
  | case8 a b c d more low high ih =>
    obtain ⟨cs, first, rfl⟩ := Option.map_eq_some_iff.mp spelled
    have shown := stringFrom_escape
      (escape_hex high low (more.flatMap Piece.text ++ '"' :: rest)) read
    refine shown.trans ((ih first (_ :: read)).trans ?_)
    rw [List.reverse_cons, List.append_assoc, List.singleton_append]

theorem exists_text_of_stringFrom (h : stringFrom read cs = .ok (s, rest)) :
    ∃ ps chars, Piece.chars? ps = some chars ∧ s = String.ofList (read.reverse ++ chars) ∧
      cs = ps.flatMap Piece.text ++ '"' :: rest := by
  fun_induction stringFrom read cs with
  | case1 => cases h
  | case2 read more =>
    obtain ⟨rfl, rfl⟩ := Prod.mk.inj (Except.ok.inj h)
    exact ⟨[], [], rfl, by rw [List.append_nil], rfl⟩
  | case3 => cases h
  | case4 read more e left escaped _ ih =>
    obtain ⟨ps, chars, spelled, rfl, rfl⟩ := ih h
    obtain ⟨first, shown, spells⟩ := exists_pieces escaped
    refine ⟨first ++ ps, e :: chars, spells ps chars spelled, ?_, ?_⟩
    · rw [List.reverse_cons, List.append_assoc, List.singleton_append]
    · rw [shown, List.flatMap_append, List.append_assoc]
  | case5 => cases h
  | case6 read c more quote slash control ih =>
    obtain ⟨ps, chars, spelled, rfl, rfl⟩ := ih h
    refine ⟨.plain c ⟨quote, slash, Nat.le_of_not_lt control⟩ :: ps, c :: chars, ?_, ?_, rfl⟩
    · rw [Piece.chars?, spelled, Option.map_some]
    · rw [List.reverse_cons, List.append_assoc, List.singleton_append]

theorem string_spelled (spelled : Piece.Spell ps s) (rest : List Char) :
    string (ps.flatMap Piece.text ++ '"' :: rest) = .ok (s, rest) := by
  unfold string
  rw [stringFrom_text spelled, List.reverse_nil, List.nil_append, String.ofList_toList]

theorem string_eq_ok_iff :
    string cs = .ok (s, rest) ↔ ∃ ps, Piece.Spell ps s ∧ cs = ps.flatMap Piece.text ++ '"' :: rest := by
  constructor
  · intro h
    obtain ⟨ps, chars, spelled, rfl, rfl⟩ := exists_text_of_stringFrom h
    refine ⟨ps, ?_, rfl⟩
    unfold Piece.Spell
    rw [spelled, String.toList_ofList]
    rfl
  · rintro ⟨ps, spelled, rfl⟩
    exact string_spelled spelled rest

end Strings

section Skipping
variable {cs rest left : List Char} {ps : List Piece}

theorem skipEscape_short {letter c : Char} (listed : (letter, c) ∈ shortEscapes)
    (rest : List Char) : skipEscape (letter :: rest) = .ok rest := by
  unfold skipEscape
  split
  next h => cases h
  next h => exact absurd (List.cons.inj h).1 (ne_u_of_listed listed)
  next h =>
    obtain ⟨rfl, rfl⟩ := List.cons.inj h
    rw [shortEscape?_eq_some_iff.mpr listed]
    rfl

theorem skipEscape_hex (a b c d : HexDigit) (rest : List Char) :
    skipEscape ('u' :: a.char :: b.char :: c.char :: d.char :: rest) = .ok rest := by
  show (hexQuad _).map _ = _
  rw [hexQuad_digits]
  rfl

theorem exists_piece_of_skipEscape (h : skipEscape cs = .ok left) :
    ∃ p : Piece, '\\' :: cs = p.text ++ left := by
  unfold skipEscape at h
  split at h
  · cases h
  next digits =>
    cases quad : hexQuad digits with
    | error r => rw [quad] at h; cases h
    | ok read =>
      rw [quad] at h
      obtain rfl := Except.ok.inj h
      have quad : hexQuad digits = .ok (read.1, read.2) := quad
      obtain ⟨a, b, c, d, rfl, -⟩ := exists_digits quad
      exact ⟨.hex a b c d, rfl⟩
  next letter more _ =>
    split at h
    next known =>
      obtain rfl := Except.ok.inj h
      obtain ⟨c, meaning⟩ := Option.isSome_iff_exists.mp known
      exact ⟨.short letter c (shortEscape?_eq_some_iff.mp meaning), rfl⟩
    · cases h

theorem skipString_escape (h : skipEscape rest = .ok left) :
    skipString ('\\' :: rest) = skipString left := by
  have other : ¬ '\\' = '"' := by decide
  have slash : '\\' = '\\' := rfl
  rw [skipString, if_neg other, if_pos slash]
  split
  next h' => rw [h] at h'; cases h'
  next h' =>
    rw [h] at h'
    obtain rfl := Except.ok.inj h'
    rfl

theorem skipString_text (ps : List Piece) (rest : List Char) :
    skipString (ps.flatMap Piece.text ++ '"' :: rest) = .ok rest := by
  induction ps with
  | nil => exact (skipString.eq_2 _ _).trans (if_pos rfl)
  | cons p ps ih =>
    cases p with
    | plain c clear =>
      show skipString (c :: (ps.flatMap Piece.text ++ '"' :: rest)) = _
      have control : ¬ c.toNat < 32 := Nat.not_lt.mpr clear.2.2
      rw [skipString, if_neg clear.1, if_neg clear.2.1, if_neg control]
      exact ih
    | short letter c listed => exact (skipString_escape (skipEscape_short listed _)).trans ih
    | hex a b c d => exact (skipString_escape (skipEscape_hex a b c d _)).trans ih

theorem skipString_eq_ok_iff :
    skipString cs = .ok rest ↔ ∃ ps : List Piece, cs = ps.flatMap Piece.text ++ '"' :: rest := by
  constructor
  · intro h
    fun_induction skipString cs with
    | case1 => cases h
    | case2 more =>
      obtain rfl := Except.ok.inj h
      exact ⟨[], rfl⟩
    | case3 => cases h
    | case4 more left escaped _ ih =>
      obtain ⟨ps, rfl⟩ := ih h
      obtain ⟨p, shown⟩ := exists_piece_of_skipEscape escaped
      exact ⟨p :: ps, by rw [shown, List.flatMap_cons, List.append_assoc]⟩
    | case5 => cases h
    | case6 c more quote slash control ih =>
      obtain ⟨ps, rfl⟩ := ih h
      exact ⟨.plain c ⟨quote, slash, Nat.le_of_not_lt control⟩ :: ps, rfl⟩
  · rintro ⟨ps, rfl⟩
    exact skipString_text ps rest

end Skipping

end FlowLoops.Json
