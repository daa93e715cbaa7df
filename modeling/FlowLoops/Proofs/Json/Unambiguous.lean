import FlowLoops.Proofs.Json.Layout

/-! A text has at most one tree. Where a token ends is settled by what may follow it, and where a value
ends by its brackets. -/

namespace FlowLoops.Json

section Pieces
variable {ps ps' : List Piece} {rest rest' : List Char}

theorem HexDigit.eq_of_char {a b : HexDigit} (h : a.char = b.char) : a = b := by
  cases a
  cases b
  cases h
  rfl

theorem meaning_unique {letter c c' : Char} (h : (letter, c) ∈ shortEscapes)
    (h' : (letter, c') ∈ shortEscapes) : c = c' := by
  have each : ∀ e ∈ shortEscapes, ∀ e' ∈ shortEscapes, e.1 = e'.1 → e.2 = e'.2 := by decide
  exact each _ h _ h' rfl

theorem Piece.text_append_inj {p p' : Piece} (h : p.text ++ rest = p'.text ++ rest') :
    p = p' ∧ rest = rest' := by
  cases p with
  | plain c clear =>
    cases p' with
    | plain c' clear' =>
      obtain ⟨rfl, rfl⟩ := List.cons.inj h
      exact ⟨rfl, rfl⟩
    | short => exact absurd (List.cons.inj h).1 clear.2.1
    | hex => exact absurd (List.cons.inj h).1 clear.2.1
  | short letter c listed =>
    cases p' with
    | plain c' clear' => exact absurd (List.cons.inj h).1.symm clear'.2.1
    | short letter' c' listed' =>
      obtain ⟨rfl, rfl⟩ := List.cons.inj (List.cons.inj h).2
      obtain rfl := meaning_unique listed listed'
      exact ⟨rfl, rfl⟩
    | hex => exact absurd (List.cons.inj (List.cons.inj h).2).1 (ne_u_of_listed listed)
  | hex a b c d =>
    cases p' with
    | plain c' clear' => exact absurd (List.cons.inj h).1.symm clear'.2.1
    | short letter' c' listed' =>
      exact absurd (List.cons.inj (List.cons.inj h).2).1.symm (ne_u_of_listed listed')
    | hex a' b' c' d' =>
      simp only [text, List.cons_append, List.nil_append, List.cons.injEq, true_and] at h
      obtain ⟨ha, hb, hc, hd, rfl⟩ := h
      obtain rfl := HexDigit.eq_of_char ha
      obtain rfl := HexDigit.eq_of_char hb
      obtain rfl := HexDigit.eq_of_char hc
      obtain rfl := HexDigit.eq_of_char hd
      exact ⟨rfl, rfl⟩

theorem Piece.text_head_ne_quote (p : Piece) (rest rest' : List Char) :
    p.text ++ rest ≠ '"' :: rest' := by
  intro h
  cases p with
  | plain c clear => exact clear.1 (List.cons.inj h).1
  | short => cases (List.cons.inj h).1
  | hex => cases (List.cons.inj h).1

theorem pieces_inj (h : ps.flatMap Piece.text ++ '"' :: rest = ps'.flatMap Piece.text ++ '"' :: rest') :
    ps = ps' ∧ rest = rest' := by
  induction ps generalizing ps' with
  | nil =>
    cases ps' with
    | nil => exact ⟨rfl, (List.cons.inj h).2⟩
    | cons p' ps' =>
      rw [List.flatMap_cons, List.append_assoc] at h
      exact absurd h.symm (p'.text_head_ne_quote _ _)
  | cons p ps ih =>
    rw [List.flatMap_cons, List.append_assoc] at h
    cases ps' with
    | nil => exact absurd h (p.text_head_ne_quote _ _)
    | cons p' ps' =>
      rw [List.flatMap_cons, List.append_assoc] at h
      obtain ⟨rfl, others⟩ := Piece.text_append_inj h
      obtain ⟨rfl, rfl⟩ := ih others
      exact ⟨rfl, rfl⟩

end Pieces

section Numerals
variable {ds ds' rest rest' : List Char}

theorem Digits.inNumeral (digits : Digits ds) : ∀ c ∈ ds, InNumeral c :=
  fun c hc => .inl (digits.2 c hc)

theorem inNumeral_sign {sign : List Char} (signed : sign = [] ∨ sign = ['+'] ∨ sign = ['-']) :
    ∀ c ∈ sign, InNumeral c := by
  unfold InNumeral
  rcases signed with rfl | rfl | rfl <;> simp

theorem IsNumeral.inNumeral {text : List Char} (numeral : IsNumeral text) :
    ∀ c ∈ text, InNumeral c := by
  cases numeral with
  | @intro sign whole fraction exponent signed digits lead hf he =>
    have hf : ∀ c ∈ fraction, InNumeral c := by
      cases hf with
      | none => exact fun c hc => absurd hc List.not_mem_nil
      | some digits => exact List.forall_mem_cons.mpr ⟨.inr (by decide), digits.inNumeral⟩
    have he : ∀ c ∈ exponent, InNumeral c := by
      cases he with
      | none => exact fun c hc => absurd hc List.not_mem_nil
      | some letter signed digits =>
        have others := List.forall_mem_append.mpr ⟨inNumeral_sign signed, digits.inNumeral⟩
        refine List.forall_mem_cons.mpr ⟨.inr ?_, others⟩
        rcases letter with rfl | rfl <;> decide
    have first := inNumeral_sign (signed.imp_right .inr)
    have tail := List.forall_mem_append.mpr ⟨hf, he⟩
    exact List.forall_mem_append.mpr ⟨first, List.forall_mem_append.mpr ⟨digits.inNumeral, tail⟩⟩

theorem numeral_inj (hds : ∀ c ∈ ds, InNumeral c) (hds' : ∀ c ∈ ds', InNumeral c)
    (stops : Stops rest) (stops' : Stops rest') (h : ds ++ rest = ds' ++ rest') :
    ds = ds' ∧ rest = rest' := by
  induction ds generalizing ds' with
  | nil =>
    cases ds' with
    | nil => exact ⟨rfl, h⟩
    | cons d ds' =>
      rw [List.nil_append] at h
      subst h
      exact absurd (hds' d List.mem_cons_self) (stops d rfl)
  | cons d ds ih =>
    cases ds' with
    | nil =>
      rw [List.nil_append] at h
      subst h
      exact absurd (hds d List.mem_cons_self) (stops' d rfl)
    | cons d' ds' =>
      rw [List.cons_append, List.cons_append] at h
      obtain ⟨rfl, others⟩ := List.cons.inj h
      obtain ⟨rfl, rfl⟩ := ih (List.forall_mem_cons.mp hds).2 (List.forall_mem_cons.mp hds').2 others
      exact ⟨rfl, rfl⟩

end Numerals

section Tokens
variable {t t' : Token} {rest rest' : List Char}

/-- What a token starts with. All numbers count as starting with a zero. -/
def Token.lead : Token → Char
  | opening .list => '['
  | opening .object => '\x7b'
  | closing b => b.close
  | comma => ','
  | colon => ':'
  | null => 'n'
  | bool true => 't'
  | bool false => 'f'
  | number _ => '0'
  | string _ => '"'

def leadOf (c : Char) : Char := if c.isDigit ∨ c = '-' then '0' else c

theorem Token.leadOf_text (t : Token) : ∃ c more, t.text = c :: more ∧ leadOf c = t.lead := by
  cases t with
  | number n =>
    obtain ⟨c, more, shown, first⟩ := n.valid.eq_cons
    exact ⟨c, more, shown, if_pos first.symm⟩
  | opening b => cases b <;> exact ⟨_, _, rfl, rfl⟩
  | closing b => cases b <;> exact ⟨_, _, rfl, rfl⟩
  | bool b => cases b <;> exact ⟨_, _, rfl, rfl⟩
  | comma => exact ⟨_, _, rfl, rfl⟩
  | colon => exact ⟨_, _, rfl, rfl⟩
  | null => exact ⟨_, _, rfl, rfl⟩
  | string ps => exact ⟨_, _, rfl, rfl⟩

theorem Token.lead_eq (h : t.text ++ rest = t'.text ++ rest') : t.lead = t'.lead := by
  obtain ⟨c, more, shown, lead⟩ := t.leadOf_text
  obtain ⟨c', more', shown', lead'⟩ := t'.leadOf_text
  rw [shown, shown'] at h
  obtain ⟨rfl, -⟩ := List.cons.inj h
  exact lead.symm.trans lead'

theorem Token.lead_inj (h : t.lead = t'.lead) :
    t = t' ∨ (∃ n n', t = .number n ∧ t' = .number n') ∨ ∃ ps ps', t = .string ps ∧ t' = .string ps' := by
  rcases t with (_ | _) | (_ | _) | _ | _ | _ | (_ | _) | n | ps <;>
    rcases t' with (_ | _) | (_ | _) | _ | _ | _ | (_ | _) | n' | ps' <;>
    first
    | exact .inl rfl
    | exact .inr (.inl ⟨_, _, rfl, rfl⟩)
    | exact .inr (.inr ⟨_, _, rfl, rfl⟩)
    | cases h

/-- The text of a token tells where the token ends, for a number with what follows it. -/
theorem Token.text_append_inj (stops : (∃ n, t = .number n) → Stops rest)
    (stops' : (∃ n, t' = .number n) → Stops rest') (h : t.text ++ rest = t'.text ++ rest') :
    t = t' ∧ rest = rest' := by
  rcases lead_inj (lead_eq h) with rfl | ⟨n, n', rfl, rfl⟩ | ⟨ps, ps', rfl, rfl⟩
  · exact ⟨rfl, List.append_cancel_left h⟩
  · obtain ⟨same, rfl⟩ := numeral_inj n.valid.inNumeral n'.valid.inNumeral (stops ⟨n, rfl⟩)
      (stops' ⟨n', rfl⟩) h
    obtain ⟨text, valid⟩ := n
    obtain rfl := same
    exact ⟨rfl, rfl⟩
  · rw [text_string_append, text_string_append] at h
    obtain ⟨rfl, rfl⟩ := pieces_inj (List.cons.inj h).2
    exact ⟨rfl, rfl⟩

theorem Laid.head_unique {ts ts' : List Token} {text : List Char} (laid : Laid (t :: ts) text)
    (laid' : Laid (t' :: ts') text) (ends : (∃ n, t = .number n) → Ends ts)
    (ends' : (∃ n, t' = .number n) → Ends ts') :
    t = t' ∧ ∃ rest, Laid ts rest ∧ Laid ts' rest := by
  obtain ⟨rest, shown, laid⟩ := laid.next
  obtain ⟨rest', shown', laid'⟩ := laid'.next
  obtain ⟨rfl, rfl⟩ := Token.text_append_inj (fun number => laid.stops (ends number))
    (fun number => laid'.stops (ends' number)) (shown.symm.trans shown')
  exact ⟨rfl, rest, laid, laid'⟩

theorem Laid.mark_unique {ts ts' : List Token} {text : List Char} (laid : Laid (t :: ts) text)
    (laid' : Laid (t' :: ts') text) (mark : ∀ n, t ≠ .number n) (mark' : ∀ n, t' ≠ .number n) :
    t = t' ∧ ∃ rest, Laid ts rest ∧ Laid ts' rest :=
  laid.head_unique laid' (fun ⟨n, h⟩ => absurd h (mark n)) fun ⟨n, h⟩ => absurd h (mark' n)

end Tokens

namespace Tree

def head : Tree → Token
  | null => .null
  | bool b => .bool b
  | number n => .number n
  | string ps => .string ps
  | list _ => .opening .list
  | object _ => .opening .object

def tail : Tree → List Token
  | list items => inList items
  | object ms => inObject ms
  | _ => []

theorem tokens_eq (v : Tree) : v.tokens = v.head :: v.tail := by
  cases v with
  | list items => exact tokens_list items
  | object ms => exact tokens_object ms
  | _ => rfl

def Unique (v : Tree) : Prop := ∀ (v' : Tree) (ts ts' : List Token) (text : List Char), Ends ts →
  Ends ts' → Laid (v.tokens ++ ts) text → Laid (v'.tokens ++ ts') text →
    v = v' ∧ ∃ rest, Laid ts rest ∧ Laid ts' rest

section Unique
variable {items items' : List Tree} {ms ms' : List Member} {ts ts' : List Token} {text : List Char}

theorem ends_tail (v : Tree) (ends : Ends ts) : (∃ n, v.head = .number n) → Ends (v.tail ++ ts) := by
  rintro ⟨n, number⟩
  cases v with
  | number => exact ends
  | _ => cases number

theorem head_unique {v v' : Tree} (ends : Ends ts) (ends' : Ends ts')
    (laid : Laid (v.tokens ++ ts) text) (laid' : Laid (v'.tokens ++ ts') text) :
    v.head = v'.head ∧ ∃ rest, Laid (v.tail ++ ts) rest ∧ Laid (v'.tail ++ ts') rest := by
  rw [tokens_eq] at laid laid'
  exact laid.head_unique laid' (v.ends_tail ends) (v'.ends_tail ends')

theorem not_laid_closing {v : Tree} {b : Bracket} (laid : Laid (.closing b :: ts) text)
    (laid' : Laid (v.tokens ++ ts') text) : False := by
  obtain ⟨t, more, shown, starts⟩ := v.tokens_eq_cons
  rw [shown, List.cons_append] at laid'
  obtain ⟨rest, next, -⟩ := laid.next
  obtain ⟨rest', next', -⟩ := laid'.next
  obtain ⟨c, letters, spelled, -, other⟩ := starts.text_eq_cons
  rw [spelled] at next'
  cases b <;> cases next.symm.trans next' <;> exact other (by decide)

theorem moreItems_unique (each : ∀ v ∈ items, v.Unique) (laid : Laid (moreItems items ++ ts) text)
    (laid' : Laid (moreItems items' ++ ts') text) :
    items = items' ∧ ∃ rest, Laid ts rest ∧ Laid ts' rest := by
  induction items generalizing items' text with
  | nil =>
    cases items' with
    | nil => exact ⟨rfl, (laid.mark_unique laid' (by simp) (by simp)).2⟩
    | cons v' items' => cases (laid.mark_unique laid' (by simp) (by simp)).1
  | cons v items ih =>
    cases items' with
    | nil => cases (laid.mark_unique laid' (by simp) (by simp)).1
    | cons v' items' =>
      rw [moreItems, List.cons_append, List.append_assoc] at laid laid'
      obtain ⟨first, others⟩ := List.forall_mem_cons.mp each
      obtain ⟨-, rest, laid, laid'⟩ := laid.mark_unique laid' (by simp) (by simp)
      obtain ⟨rfl, rest, laid, laid'⟩ := first v' _ _ rest (ends_moreItems items ts)
        (ends_moreItems items' ts') laid laid'
      obtain ⟨rfl, done⟩ := ih others laid laid'
      exact ⟨rfl, done⟩

theorem inList_unique (each : ∀ v ∈ items, v.Unique) (laid : Laid (inList items ++ ts) text)
    (laid' : Laid (inList items' ++ ts') text) :
    items = items' ∧ ∃ rest, Laid ts rest ∧ Laid ts' rest := by
  cases items with
  | nil =>
    cases items' with
    | nil => exact ⟨rfl, (laid.mark_unique laid' (by simp) (by simp)).2⟩
    | cons v' items' =>
      rw [inList, List.append_assoc] at laid'
      exact (not_laid_closing laid laid').elim
  | cons v items =>
    rw [inList, List.append_assoc] at laid
    cases items' with
    | nil => exact (not_laid_closing laid' laid).elim
    | cons v' items' =>
      rw [inList, List.append_assoc] at laid'
      obtain ⟨first, others⟩ := List.forall_mem_cons.mp each
      obtain ⟨rfl, rest, laid, laid'⟩ := first v' _ _ text (ends_moreItems items ts)
        (ends_moreItems items' ts') laid laid'
      obtain ⟨rfl, done⟩ := moreItems_unique others laid laid'
      exact ⟨rfl, done⟩

theorem member_unique {key key' : List Piece} {v v' : Tree} (unique : v.Unique) (ends : Ends ts)
    (ends' : Ends ts') (laid : Laid (.string key :: .colon :: (v.tokens ++ ts)) text)
    (laid' : Laid (.string key' :: .colon :: (v'.tokens ++ ts')) text) :
    key = key' ∧ v = v' ∧ ∃ rest, Laid ts rest ∧ Laid ts' rest := by
  obtain ⟨same, rest, laid, laid'⟩ := laid.mark_unique laid' (by simp) (by simp)
  obtain ⟨-, rest, laid, laid'⟩ := laid.mark_unique laid' (by simp) (by simp)
  exact ⟨Token.string.inj same, unique v' ts ts' rest ends ends' laid laid'⟩

theorem moreMembers_unique (each : ∀ m ∈ ms, m.2.Unique)
    (laid : Laid (moreMembers ms ++ ts) text) (laid' : Laid (moreMembers ms' ++ ts') text) :
    ms = ms' ∧ ∃ rest, Laid ts rest ∧ Laid ts' rest := by
  induction ms generalizing ms' text with
  | nil =>
    cases ms' with
    | nil => exact ⟨rfl, (laid.mark_unique laid' (by simp) (by simp)).2⟩
    | cons m' ms' => cases (laid.mark_unique laid' (by simp) (by simp)).1
  | cons m ms ih =>
    cases ms' with
    | nil => cases (laid.mark_unique laid' (by simp) (by simp)).1
    | cons m' ms' =>
      simp only [moreMembers, List.cons_append, List.append_assoc] at laid laid'
      obtain ⟨first, others⟩ := List.forall_mem_cons.mp each
      obtain ⟨-, rest, laid, laid'⟩ := laid.mark_unique laid' (by simp) (by simp)
      obtain ⟨key, value, rest, laid, laid'⟩ := member_unique first (ends_moreMembers ms ts)
        (ends_moreMembers ms' ts') laid laid'
      obtain ⟨rfl, done⟩ := ih others laid laid'
      exact ⟨congrArg (· :: ms) (Prod.ext key value), done⟩

theorem inObject_unique (each : ∀ m ∈ ms, m.2.Unique) (laid : Laid (inObject ms ++ ts) text)
    (laid' : Laid (inObject ms' ++ ts') text) :
    ms = ms' ∧ ∃ rest, Laid ts rest ∧ Laid ts' rest := by
  cases ms with
  | nil =>
    cases ms' with
    | nil => exact ⟨rfl, (laid.mark_unique laid' (by simp) (by simp)).2⟩
    | cons m' ms' => cases (laid.mark_unique laid' (by simp) (by simp)).1
  | cons m ms =>
    cases ms' with
    | nil => cases (laid.mark_unique laid' (by simp) (by simp)).1
    | cons m' ms' =>
      simp only [inObject, List.cons_append, List.append_assoc] at laid laid'
      obtain ⟨first, others⟩ := List.forall_mem_cons.mp each
      obtain ⟨key, value, rest, laid, laid'⟩ := member_unique first (ends_moreMembers ms ts)
        (ends_moreMembers ms' ts') laid laid'
      obtain ⟨rfl, done⟩ := moreMembers_unique others laid laid'
      exact ⟨congrArg (· :: ms) (Prod.ext key value), done⟩

theorem unique_of_head {v : Tree} (alone : v.tail = []) (told : ∀ v', v.head = v'.head → v = v') :
    v.Unique := by
  intro v' ts ts' text ends ends' laid laid'
  obtain ⟨same, rest⟩ := head_unique ends ends' laid laid'
  obtain rfl := told v' same
  rw [alone] at rest
  exact ⟨rfl, rest⟩

theorem unique (v : Tree) : v.Unique := by
  induction v using Tree.induct with
  | null => exact unique_of_head rfl fun v' same => by cases v' <;> cases same; rfl
  | bool b => exact unique_of_head rfl fun v' same => by cases v' <;> cases same; rfl
  | number n => exact unique_of_head rfl fun v' same => by cases v' <;> cases same; rfl
  | string ps => exact unique_of_head rfl fun v' same => by cases v' <;> cases same; rfl
  | list items each =>
    intro v' ts ts' text ends ends' laid laid'
    obtain ⟨same, rest, laid, laid'⟩ := head_unique ends ends' laid laid'
    cases v' with
    | list items' =>
      obtain ⟨rfl, rest⟩ := inList_unique each laid laid'
      exact ⟨rfl, rest⟩
    | _ => cases same
  | object ms each =>
    intro v' ts ts' text ends ends' laid laid'
    obtain ⟨same, rest, laid, laid'⟩ := head_unique ends ends' laid laid'
    cases v' with
    | object ms' =>
      obtain ⟨rfl, rest⟩ := inObject_unique each laid laid'
      exact ⟨rfl, rest⟩
    | _ => cases same

end Unique

end Tree

theorem IsText.unique {v v' : Tree} {text : List Char} (h : IsText v text) (h' : IsText v' text) :
    v = v' := by
  unfold IsText at h h'
  rw [← List.append_nil v.tokens] at h
  rw [← List.append_nil v'.tokens] at h'
  exact (v.unique v' [] [] text ends_nil ends_nil h h').1

end FlowLoops.Json
