import FlowLoops.Proofs.Json.Skipping

/-! Readers and the trees whose texts they read. A reader has its trees: it reads just their texts, up
to what may follow a value. -/

namespace FlowLoops.Json
variable {α β : Type}

inductive IsString : Tree → String → Prop
  | intro {ps : List Piece} {s : String} (spelled : Piece.Spell ps s) : IsString (.string ps) s

inductive IsOptionalString : Tree → Option String → Prop
  | null : IsOptionalString .null none
  | string {ps : List Piece} {s : String} (spelled : Piece.Spell ps s) :
    IsOptionalString (.string ps) (some s)

inductive IsList (R : Tree → α → Prop) : Tree → List α → Prop
  | intro {items : List Tree} {as : List α} (each : List.Forall₂ R items as) :
    IsList R (.list items) as

theorem IsList.exists_of_mem {R : Tree → α → Prop} {items : List Tree} {as : List α} {v : Tree}
    (h : IsList R (.list items) as) (hv : v ∈ items) : ∃ a, R v a := by
  cases h with
  | intro each =>
    induction each with
    | nil => cases hv
    | cons first _ ih =>
      rcases List.mem_cons.mp hv with rfl | later
      · exact ⟨_, first⟩
      · exact ih later

/-- A reader reads the texts of a tree as what the tree stands for, and no other texts. -/
structure Reader.Reads (r : Reader α) (R : Tree → α → Prop) : Prop where
  complete : ∀ {v : Tree} {a : α} {ts : List Token} {text : List Char}, R v a → Ends ts →
    Laid (v.tokens ++ ts) text → ∃ rest, r.read text = .ok (a, rest) ∧ Laid ts rest
  sound : ∀ {text : List Char} {a : α} {rest : List Char}, r.read text = .ok (a, rest) →
    ∃ v, R v a ∧ ∀ ts, Laid ts rest → Laid (v.tokens ++ ts) text

theorem Reader.Reads.whole_eq_ok_iff {r : Reader α} {R : Tree → α → Prop} (reads : r.Reads R)
    {text : List Char} {a : α} : r.whole text = .ok a ↔ ∃ v, R v a ∧ IsText v text := by
  unfold IsText
  constructor
  · intro h
    unfold Reader.whole at h
    split at h
    · cases h
    next b rest read =>
      split at h
      next blank =>
        obtain rfl := Except.ok.inj h
        obtain ⟨v, holds, laid⟩ := reads.sound read
        have whole := laid [] (laid_nil_iff.mpr blank)
        rw [List.append_nil] at whole
        exact ⟨v, holds, whole⟩
      · cases h
  · rintro ⟨v, holds, laid⟩
    rw [← List.append_nil v.tokens] at laid
    obtain ⟨rest, read, laid⟩ := reads.complete holds ends_nil laid
    have blank := laid_nil_iff.mp laid
    unfold Reader.whole
    simp only [read, blank]

section Scalars

theorem Reader.reads_text : Reader.text.Reads IsString where
  complete := by
    rintro v s ts text ⟨spelled⟩ - laid
    obtain ⟨rest, shown, laid⟩ := laid.next
    refine ⟨rest, ?_, laid⟩
    rw [Token.text_string_append] at shown
    show readText text = _
    unfold readText
    rw [shown]
    exact string_spelled spelled rest
  sound := by
    intro text s rest h
    have h : readText text = .ok (s, rest) := h
    unfold readText at h
    split at h
    · cases h
    next c more shown =>
      split at h
      next quote =>
        subst quote
        obtain ⟨ps, spelled, rfl⟩ := string_eq_ok_iff.mp h
        refine ⟨.string ps, .intro spelled, fun ts laid => laid_of_next ?_ laid⟩
        rw [shown, Token.text_string_append]
      · cases h

theorem Reader.reads_optionalText : Reader.optionalText.Reads IsOptionalString where
  complete := by
    rintro v o ts text (_ | spelled) ends laid
    · obtain ⟨rest, shown, laid⟩ := laid.next
      refine ⟨rest, ?_, laid⟩
      have read : word ['u', 'l', 'l'] (['u', 'l', 'l'] ++ rest) = .ok rest :=
        word_eq_ok_iff.mpr rfl
      show readOptionalText text = _
      unfold readOptionalText
      rw [shown]
      show (word ['u', 'l', 'l'] (['u', 'l', 'l'] ++ rest)).map _ = _
      rw [read]
      rfl
    · obtain ⟨_, shown, -⟩ := laid.next
      obtain ⟨rest, read, laid⟩ := reads_text.complete (.intro spelled) ends laid
      have read : readText text = .ok (_, rest) := read
      refine ⟨rest, ?_, laid⟩
      show readOptionalText text = _
      unfold readOptionalText
      rw [shown, read]
      rfl
  sound := by
    intro text o rest h
    have h : readOptionalText text = .ok (o, rest) := h
    unfold readOptionalText at h
    split at h
    next more shown =>
      cases read : word ['u', 'l', 'l'] more with
      | error r => rw [read] at h; cases h
      | ok left =>
        rw [read] at h
        obtain ⟨rfl, rfl⟩ := Prod.mk.inj (Except.ok.inj h)
        refine ⟨.null, .null, fun ts laid => laid_of_next (t := .null) ?_ laid⟩
        rw [shown, word_eq_ok_iff.mp read]
        rfl
    · cases read : readText text with
      | error r => rw [read] at h; cases h
      | ok p =>
        rw [read] at h
        obtain ⟨rfl, rfl⟩ := Prod.mk.inj (Except.ok.inj h)
        have read : Reader.text.read text = .ok (p.1, p.2) := read
        obtain ⟨v, ⟨spelled⟩, laid⟩ := reads_text.sound read
        exact ⟨_, .string spelled, laid⟩

theorem Reader.Reads.map {r : Reader α} {R : Tree → α → Prop} (reads : r.Reads R) (f : α → β) :
    (r.map f).Reads fun v b => ∃ a, R v a ∧ b = f a where
  complete := by
    rintro v b ts text ⟨a, holds, rfl⟩ ends laid
    obtain ⟨rest, read, laid⟩ := reads.complete holds ends laid
    refine ⟨rest, ?_, laid⟩
    unfold Reader.map
    simp only [read]
  sound := by
    intro text b rest h
    unfold Reader.map at h
    simp only at h
    split at h
    · cases h
    next a left read =>
      obtain ⟨rfl, rfl⟩ := Prod.mk.inj (Except.ok.inj h)
      obtain ⟨v, holds, laid⟩ := reads.sound read
      exact ⟨v, ⟨a, holds, rfl⟩, laid⟩

end Scalars

def separator (first : Bool) : List Token := if first then [] else [.comma]

section Items
variable {first : Bool} {text rest : List Char} {ts : List Token}

theorem nextItem_comma {c : Char} {left more : List Char} (comma : skipBlanks text = ',' :: left)
    (shown : skipBlanks left = c :: more) (goesOn : c ≠ ']') :
    nextItem false text = .ok (true, c :: more) := by
  unfold nextItem
  rw [comma]
  simp [shown, goesOn]

theorem nextItem_closing (first : Bool) (laid : Laid (.closing .list :: ts) text) :
    ∃ rest, nextItem first text = .ok (false, ']' :: rest) ∧ Laid ts rest := by
  obtain ⟨rest, shown, laid⟩ := laid.next
  refine ⟨rest, ?_, laid⟩
  unfold nextItem
  rw [shown]
  rfl

theorem nextItem_item {v : Tree} (laid : Laid (separator first ++ (v.tokens ++ ts)) text) :
    ∃ rest, nextItem first text = .ok (true, rest) ∧ Laid (v.tokens ++ ts) rest := by
  have start : ∀ {text}, Laid (v.tokens ++ ts) text → ∃ c more,
      skipBlanks text = c :: more ∧ c ≠ ']' ∧ Laid (v.tokens ++ ts) (c :: more) := by
    intro text laid
    obtain ⟨t, row, shown, starts⟩ := v.tokens_eq_cons
    obtain ⟨c, letters, spelled, -, other⟩ := starts.text_eq_cons
    have moved := laid_skipBlanks_iff.mpr laid
    rw [shown, List.cons_append] at laid
    obtain ⟨left, next, -⟩ := laid.next
    rw [next, spelled, List.cons_append] at moved
    refine ⟨c, letters ++ left, by rw [next, spelled, List.cons_append], ?_, moved⟩
    rintro rfl
    exact other (by decide)
  cases first with
  | true =>
    obtain ⟨c, more, shown, goesOn, laid⟩ := start laid
    refine ⟨c :: more, ?_, laid⟩
    unfold nextItem
    simp only [shown, if_neg goesOn, if_true]
  | false =>
    obtain ⟨left, comma, laid⟩ := laid.next
    obtain ⟨c, more, shown, goesOn, laid⟩ := start laid
    exact ⟨c :: more, nextItem_comma comma shown goesOn, laid⟩

theorem laid_of_nextItem_false (h : nextItem first text = .ok (false, rest)) :
    ∃ more, rest = ']' :: more ∧ ∀ ts, Laid ts more → Laid (.closing .list :: ts) text := by
  unfold nextItem at h
  split at h
  · cases h
  next c more shown =>
    split at h
    next bracket =>
      subst bracket
      obtain ⟨-, rfl⟩ := Prod.mk.inj (Except.ok.inj h)
      exact ⟨more, rfl, fun ts laid => laid_of_next shown laid⟩
    split at h
    · cases h
    split at h
    · split at h
      · cases h
      · split at h <;> cases h
    · cases h

theorem laid_of_nextItem_true (h : nextItem first text = .ok (true, rest)) :
    ∀ ts, Laid ts rest → Laid (separator first ++ ts) text := by
  unfold nextItem at h
  split at h
  · cases h
  next c more shown =>
    split at h
    · cases h
    split at h
    next start =>
      obtain ⟨-, rfl⟩ := Prod.mk.inj (Except.ok.inj h)
      intro ts laid
      rw [start, ← laid_skipBlanks_iff, shown]
      exact laid
    next start =>
      split at h
      next comma =>
        subst comma
        split at h
        · cases h
        next d left shown' =>
          split at h
          · cases h
          · obtain ⟨-, rfl⟩ := Prod.mk.inj (Except.ok.inj h)
            intro ts laid
            rw [Bool.eq_false_iff.mpr start]
            rw [← shown', laid_skipBlanks_iff] at laid
            exact laid_of_next shown laid
      · cases h

def itemTokens (first : Bool) : List Tree → List Token
  | [] => [.closing .list]
  | v :: rest => separator first ++ (v.tokens ++ Tree.moreItems rest)

theorem inList_eq (items : List Tree) : Tree.inList items = itemTokens true items := by
  cases items <;> rfl

theorem moreItems_eq (items : List Tree) : Tree.moreItems items = itemTokens false items := by
  cases items <;> rw [Tree.moreItems] <;> rfl

theorem itemTokens_cons_append (first : Bool) (v : Tree) (items : List Tree) (ts : List Token) :
    itemTokens first (v :: items) ++ ts =
      separator first ++ (v.tokens ++ (Tree.moreItems items ++ ts)) := by
  rw [itemTokens, List.append_assoc, List.append_assoc]

end Items

section Lists
variable {r : Reader α} {R : Tree → α → Prop} {first : Bool} {text rest : List Char}

theorem items_nil {left : List Char} (h : nextItem first text = .ok (false, left)) :
    items r first text = .ok ([], left.tail) := by
  rw [items]
  split
  next h' => cases h.symm.trans h'
  next h' =>
    obtain ⟨-, rfl⟩ := Prod.mk.inj (Except.ok.inj (h.symm.trans h'))
    rfl
  next h' => cases h.symm.trans h'

theorem items_cons {a : α} {as : List α} {left after : List Char}
    (h : nextItem first text = .ok (true, left)) (read : r.read left = .ok (a, after))
    (others : items r false after = .ok (as, rest)) :
    items r first text = .ok (a :: as, rest) := by
  rw [items]
  split
  next h' => cases h.symm.trans h'
  next h' => cases h.symm.trans h'
  next h' =>
    obtain ⟨-, rfl⟩ := Prod.mk.inj (Except.ok.inj (h.symm.trans h'))
    split
    next h' => cases read.symm.trans h'
    next h' =>
      obtain ⟨rfl, rfl⟩ := Prod.mk.inj (Except.ok.inj (read.symm.trans h'))
      rw [others]

theorem items_laid (reads : r.Reads R) {trees : List Tree} {as : List α}
    (each : List.Forall₂ R trees as) {ts : List Token}
    (laid : Laid (itemTokens first trees ++ ts) text) :
    ∃ rest, items r first text = .ok (as, rest) ∧ Laid ts rest := by
  induction each generalizing first text with
  | nil =>
    obtain ⟨rest, closing, laid⟩ := nextItem_closing first laid
    exact ⟨rest, items_nil closing, laid⟩
  | cons holds _ ih =>
    rw [itemTokens_cons_append] at laid
    obtain ⟨left, goesOn, laid⟩ := nextItem_item laid
    obtain ⟨after, read, laid⟩ := reads.complete holds (Tree.ends_moreItems _ ts) laid
    rw [moreItems_eq] at laid
    obtain ⟨rest, others, laid⟩ := ih laid
    exact ⟨rest, items_cons goesOn read others, laid⟩

theorem exists_items (reads : r.Reads R) {as : List α} (h : items r first text = .ok (as, rest)) :
    ∃ trees, List.Forall₂ R trees as ∧
      ∀ ts, Laid ts rest → Laid (itemTokens first trees ++ ts) text := by
  fun_induction items r first text generalizing as rest with
  | case1 => cases h
  | case2 first cs left hn =>
    obtain ⟨rfl, rfl⟩ := Prod.mk.inj (Except.ok.inj h)
    obtain ⟨more, rfl, laid⟩ := laid_of_nextItem_false hn
    exact ⟨[], .nil, laid⟩
  | case3 => cases h
  | case4 => cases h
  | case5 first cs left hn a after hr as' last hi ih =>
    obtain ⟨rfl, rfl⟩ := Prod.mk.inj (Except.ok.inj h)
    obtain ⟨v, holds, value⟩ := reads.sound hr
    obtain ⟨trees, each, others⟩ := ih hi
    refine ⟨v :: trees, .cons holds each, fun ts laid => ?_⟩
    rw [itemTokens_cons_append, moreItems_eq]
    exact laid_of_nextItem_true hn _ (value _ (others ts laid))

theorem Reader.Reads.list (reads : r.Reads R) : r.list.Reads (IsList R) where
  complete := by
    rintro v as ts text ⟨each⟩ - laid
    rw [Tree.tokens_list, inList_eq] at laid
    obtain ⟨left, shown, laid⟩ := laid.next
    obtain ⟨rest, read, laid⟩ := items_laid reads each laid
    refine ⟨rest, ?_, laid⟩
    show readList r text = _
    unfold readList
    rw [shown]
    exact read
  sound := by
    intro text as rest h
    have h : readList r text = .ok (as, rest) := h
    unfold readList at h
    split at h
    · cases h
    next c more shown =>
      split at h
      next bracket =>
        subst bracket
        obtain ⟨trees, each, laid⟩ := exists_items reads h
        refine ⟨.list trees, .intro each, fun ts rest => ?_⟩
        rw [Tree.tokens_list, inList_eq]
        exact laid_of_next shown (laid ts rest)
      · cases h

end Lists

end FlowLoops.Json
