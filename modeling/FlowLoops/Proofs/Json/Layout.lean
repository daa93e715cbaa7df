import FlowLoops.Proofs.Json.Tree
import Mathlib.Data.List.TakeWhile

/-! Rows of tokens in a text: where the next token starts, and what may follow the last one. -/

namespace FlowLoops.Json
variable {t : Token} {ts : List Token} {bs rest text : List Char}

theorem skipBlanks_append (blank : ∀ b ∈ bs, isBlank b) (text : List Char) :
    skipBlanks (bs ++ text) = skipBlanks text := by
  unfold skipBlanks
  exact List.dropWhile_append_of_pos blank

theorem skipBlanks_cons {c : Char} (clear : isBlank c = false) :
    skipBlanks (c :: rest) = c :: rest := by
  unfold skipBlanks
  exact List.dropWhile_cons_of_neg (Bool.eq_false_iff.mp clear)

theorem isBlank_of_isDigit {c : Char} (digit : c.isDigit) : isBlank c = false := by
  rw [Bool.eq_false_iff]
  intro blank
  simp only [isBlank, Bool.or_eq_true, decide_eq_true_eq] at blank
  rcases blank with ((rfl | rfl) | rfl) | rfl <;> cases digit

theorem Digits.eq_cons {ds : List Char} (digits : Digits ds) :
    ∃ d more, ds = d :: more ∧ d.isDigit ∧ ∀ c ∈ more, c.isDigit := by
  obtain ⟨d, more, rfl⟩ := List.exists_cons_of_ne_nil digits.1
  exact ⟨d, more, rfl, List.forall_mem_cons.mp digits.2⟩

theorem IsNumeral.eq_cons (numeral : IsNumeral text) :
    ∃ c more, text = c :: more ∧ (c = '-' ∨ c.isDigit) := by
  cases numeral with
  | intro signed digits =>
    obtain ⟨d, more, rfl, digit, -⟩ := digits.eq_cons
    rcases signed with rfl | rfl
    · exact ⟨_, _, rfl, .inr digit⟩
    · exact ⟨_, _, rfl, .inl rfl⟩

theorem Token.text_eq_cons (t : Token) : ∃ c more, t.text = c :: more ∧ isBlank c = false := by
  cases t with
  | number n =>
    obtain ⟨c, more, shown, first⟩ := n.valid.eq_cons
    refine ⟨c, more, shown, ?_⟩
    rcases first with rfl | digit
    · rfl
    · exact isBlank_of_isDigit digit
  | opening b => cases b <;> exact ⟨_, _, rfl, rfl⟩
  | closing b => cases b <;> exact ⟨_, _, rfl, rfl⟩
  | bool b => cases b <;> exact ⟨_, _, rfl, rfl⟩
  | comma => exact ⟨_, _, rfl, rfl⟩
  | colon => exact ⟨_, _, rfl, rfl⟩
  | null => exact ⟨_, _, rfl, rfl⟩
  | string ps => exact ⟨_, _, rfl, rfl⟩

theorem Token.text_string_append (ps : List Piece) (rest : List Char) :
    (Token.string ps).text ++ rest = '"' :: (ps.flatMap Piece.text ++ '"' :: rest) := by
  rw [text, List.cons_append, List.append_assoc, List.singleton_append]

def Token.Starts : Token → Prop
  | opening _ | null | bool _ | number _ | string _ => True
  | closing _ | comma | colon => False

theorem Token.Starts.text_eq_cons (starts : t.Starts) :
    ∃ c more, t.text = c :: more ∧ isBlank c = false ∧ c ∉ [']', '\x7d', ',', ':'] := by
  cases t with
  | number n =>
    obtain ⟨c, more, shown, first⟩ := n.valid.eq_cons
    have clear : isBlank c = false := first.elim (fun sign => sign ▸ rfl) isBlank_of_isDigit
    refine ⟨c, more, shown, clear, fun listed => ?_⟩
    simp only [List.mem_cons, List.not_mem_nil, or_false] at listed
    rcases listed with rfl | rfl | rfl | rfl <;> rcases first with h | h <;> cases h
  | opening b => cases b <;> exact ⟨_, _, rfl, rfl, by decide⟩
  | bool b => cases b <;> exact ⟨_, _, rfl, rfl, by decide⟩
  | null => exact ⟨_, _, rfl, rfl, by decide⟩
  | string ps => exact ⟨_, _, rfl, rfl, by decide⟩
  | closing b => exact starts.elim
  | comma => exact starts.elim
  | colon => exact starts.elim

theorem Tree.tokens_eq_cons (v : Tree) : ∃ t more, v.tokens = t :: more ∧ t.Starts := by
  cases v with
  | null => exact ⟨_, _, rfl, trivial⟩
  | bool b => exact ⟨_, _, rfl, trivial⟩
  | number n => exact ⟨_, _, rfl, trivial⟩
  | string ps => exact ⟨_, _, rfl, trivial⟩
  | list items => exact ⟨_, _, tokens_list items, trivial⟩
  | object members => exact ⟨_, _, tokens_object members, trivial⟩

theorem Laid.skipBlanks_eq_nil (laid : Laid [] text) : skipBlanks text = [] := by
  cases laid with
  | nil blank => exact List.dropWhile_eq_nil_iff.mpr blank

theorem Laid.next (laid : Laid (t :: ts) text) :
    ∃ rest, skipBlanks text = t.text ++ rest ∧ Laid ts rest := by
  cases laid with
  | @cons bs rest _ _ blank laid =>
    obtain ⟨c, more, shown, clear⟩ := t.text_eq_cons
    refine ⟨rest, ?_, laid⟩
    rw [skipBlanks_append blank, shown, List.cons_append, skipBlanks_cons clear]

theorem Laid.blanks (laid : Laid ts text) (blank : ∀ b ∈ bs, isBlank b) : Laid ts (bs ++ text) := by
  cases laid with
  | nil blank' => exact .nil fun b hb => (List.mem_append.mp hb).elim (blank b) (blank' b)
  | cons t blank' laid =>
    rw [← List.append_assoc]
    exact .cons t (fun b hb => (List.mem_append.mp hb).elim (blank b) (blank' b)) laid

theorem exists_blanks (text : List Char) :
    ∃ bs, (∀ b ∈ bs, isBlank b) ∧ text = bs ++ skipBlanks text :=
  ⟨text.takeWhile isBlank, fun _ hb => List.mem_takeWhile_imp hb,
    List.takeWhile_append_dropWhile.symm⟩

theorem laid_of_next (shown : skipBlanks text = t.text ++ rest) (laid : Laid ts rest) :
    Laid (t :: ts) text := by
  obtain ⟨bs, blank, split⟩ := exists_blanks text
  rw [split, shown]
  exact .cons t blank laid

theorem laid_skipBlanks_iff : Laid ts (skipBlanks text) ↔ Laid ts text := by
  obtain ⟨bs, blank, split⟩ := exists_blanks text
  constructor
  · intro laid
    rw [split]
    exact laid.blanks blank
  · intro laid
    cases ts with
    | nil =>
      rw [laid.skipBlanks_eq_nil]
      exact .nil fun b hb => absurd hb List.not_mem_nil
    | cons t ts =>
      obtain ⟨rest, shown, laid⟩ := laid.next
      rw [shown]
      exact .cons t (fun b hb => absurd hb List.not_mem_nil) laid

theorem laid_nil_iff : Laid [] text ↔ skipBlanks text = [] := by
  constructor
  · exact Laid.skipBlanks_eq_nil
  · intro blank
    rw [← laid_skipBlanks_iff, blank]
    exact .nil fun b hb => absurd hb List.not_mem_nil

theorem laid_cons_iff : Laid (t :: ts) text ↔
    t.text <+: skipBlanks text ∧ Laid ts ((skipBlanks text).drop t.text.length) := by
  constructor
  · intro laid
    obtain ⟨rest, shown, laid⟩ := laid.next
    rw [shown, List.drop_left]
    exact ⟨List.prefix_append _ _, laid⟩
  · rintro ⟨⟨rest, shown⟩, laid⟩
    rw [← shown, List.drop_left] at laid
    exact laid_of_next shown.symm laid

instance decidableLaid : (ts : List Token) → (text : List Char) → Decidable (Laid ts text)
  | [], _ => decidable_of_iff _ laid_nil_iff.symm
  | _ :: ts, _ =>
    have : ∀ text, Decidable (Laid ts text) := decidableLaid ts
    decidable_of_iff _ laid_cons_iff.symm

instance (v : Tree) (text : List Char) : Decidable (IsText v text) := decidableLaid v.tokens text

def Ends (ts : List Token) : Prop := ∀ t ∈ ts.head?, t = .comma ∨ ∃ b, t = .closing b

theorem ends_nil : Ends [] := fun _ ht => absurd ht (Option.not_mem_none _)

theorem ends_comma (ts : List Token) : Ends (.comma :: ts) := by
  rintro t ⟨⟩
  exact .inl rfl

theorem ends_closing (b : Bracket) (ts : List Token) : Ends (.closing b :: ts) := by
  rintro t ⟨⟩
  exact .inr ⟨b, rfl⟩

theorem Tree.ends_moreItems (items : List Tree) (ts : List Token) :
    Ends (moreItems items ++ ts) := by
  cases items with
  | nil => exact ends_closing .list ts
  | cons v items => exact ends_comma _

theorem Tree.ends_moreMembers (ms : List Member) (ts : List Token) :
    Ends (moreMembers ms ++ ts) := by
  cases ms with
  | nil => exact ends_closing .object ts
  | cons m ms => exact ends_comma _

def InNumeral (c : Char) : Prop := c.isDigit ∨ c ∈ ['+', '-', '.', 'e', 'E']

def Stops (rest : List Char) : Prop := ∀ c ∈ rest.head?, ¬ InNumeral c

theorem not_inNumeral_of_isBlank {c : Char} (blank : isBlank c) : ¬ InNumeral c := by
  simp only [isBlank, Bool.or_eq_true, decide_eq_true_eq] at blank
  unfold InNumeral
  rcases blank with ((rfl | rfl) | rfl) | rfl <;> decide

theorem Laid.stops (laid : Laid ts text) (ends : Ends ts) : Stops text := by
  cases laid with
  | nil blank =>
    intro c hc
    exact not_inNumeral_of_isBlank (blank c (List.mem_of_mem_head? hc))
  | @cons bs rest _ t blank laid =>
    cases bs with
    | cons b bs =>
      rintro c ⟨⟩
      exact not_inNumeral_of_isBlank (blank b List.mem_cons_self)
    | nil =>
      have last : t = .comma ∨ ∃ b, t = .closing b := ends t rfl
      unfold Stops InNumeral
      rcases last with rfl | ⟨_ | _, rfl⟩ <;> rintro c ⟨⟩ <;> decide

end FlowLoops.Json
