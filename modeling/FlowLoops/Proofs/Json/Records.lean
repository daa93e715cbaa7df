import FlowLoops.Proofs.Json.Members
import FlowLoops.Proofs.Json.Reading
import Mathlib.Data.List.Nodup

/-! Records and the trees that they are read from. The draft of a record has a slot for each field. An
object fills every slot at most once, in any order and with others among them, and a list in order. -/

namespace FlowLoops.Json
variable {σ α β : Type}

structure Slot (σ : Type) where
  name : String
  Value : Type
  holds : Tree → Value → Prop
  get : σ → Option Value
  put : Value → σ → σ

def Field.IsSlot (f : Field σ) (p : Slot σ) : Prop := f.name = p.name ∧
  (∀ d, f.filled d = (p.get d).isSome) ∧ f.reader.Reads fun v put => ∃ b, p.holds v b ∧ put = p.put b

structure Shape.HasSlots (s : Shape σ α) (ps : List (Slot σ)) : Prop where
  fields : List.Forall₂ Field.IsSlot s.fields ps
  required : s.required ≤ ps.length
  nodup : (ps.map Slot.name).Nodup
  get_blank : ∀ p ∈ ps, p.get s.blank = none
  get_put : ∀ p ∈ ps, ∀ b d, p.get (p.put b d) = some b
  get_other : ∀ p ∈ ps, ∀ q ∈ ps, p.name ≠ q.name → ∀ b d, p.get (q.put b d) = p.get d
  ext : ∀ {d d'}, (∀ p ∈ ps, p.get d = p.get d') → d = d'

/-- The members of an object fill a draft one by one. -/
inductive Fills (ps : List (Slot σ)) : σ → List Member → σ → Prop
  | nil (d : σ) : Fills ps d [] d
  | other {d d' : σ} {key : List Piece} {name : String} {v : Tree} {ms : List Member}
    (spelled : Piece.Spell key name) (unknown : ∀ p ∈ ps, p.name ≠ name) (rest : Fills ps d ms d') :
    Fills ps d ((key, v) :: ms) d'
  | slot {d d' : σ} {key : List Piece} {v : Tree} {ms : List Member} {p : Slot σ} {b : p.Value}
    (listed : p ∈ ps) (spelled : Piece.Spell key p.name) (empty : p.get d = none)
    (holds : p.holds v b) (rest : Fills ps (p.put b d) ms d') : Fills ps d ((key, v) :: ms) d'

inductive Lists : List (Slot σ) → σ → List Tree → σ → Prop
  | stop (ps : List (Slot σ)) (d : σ) : Lists ps d [] d
  | item {d d' : σ} {v : Tree} {items : List Tree} {p : Slot σ} {ps : List (Slot σ)} {b : p.Value}
    (holds : p.holds v b) (rest : Lists ps (p.put b d) items d') : Lists (p :: ps) d (v :: items) d'

theorem Lists.pair {p q : Slot σ} {d d' : σ} {items : List Tree} (lists : Lists [p, q] d items d')
    (enough : 2 ≤ items.length) : ∃ v w a b,
      items = [v, w] ∧ p.holds v a ∧ q.holds w b ∧ d' = q.put b (p.put a d) := by
  cases lists with
  | stop => exact absurd enough (by simp)
  | item first rest =>
    cases rest with
    | stop => exact absurd enough (by simp)
    | item second rest =>
      cases rest
      exact ⟨_, _, _, _, rfl, first, second, rfl⟩

inductive Shape.Holds (s : Shape σ α) (ps : List (Slot σ)) : Tree → α → Prop
  | object {ms : List Member} {d : σ} {a : α} (keyed : Keyed ms)
    (given : ∀ p ∈ ps, Given p.holds none (valuesOf ms p.name) (p.get d))
    (finished : s.finish d = .ok a) : Holds s ps (.object ms) a
  | list {items : List Tree} {d : σ} {a : α} (enough : s.required ≤ items.length)
    (lists : Lists ps s.blank items d) (finished : s.finish d = .ok a) : Holds s ps (.list items) a

section Fills
variable {s : Shape σ α} {ps : List (Slot σ)} {d d' : σ} {ms : List Member}

theorem Fills.keyed (fills : Fills ps d ms d') : Keyed ms := by
  induction fills with
  | nil => exact fun m hm => absurd hm List.not_mem_nil
  | other spelled _ _ ih => exact List.forall_mem_cons.mpr ⟨⟨_, spelled⟩, ih⟩
  | slot _ spelled _ _ _ ih => exact List.forall_mem_cons.mpr ⟨⟨_, spelled⟩, ih⟩

theorem Shape.HasSlots.eq_of_name (slots : s.HasSlots ps) {p q : Slot σ} (hp : p ∈ ps)
    (hq : q ∈ ps) (same : p.name = q.name) : p = q :=
  List.inj_on_of_nodup_map slots.nodup hp hq same

theorem Fills.given (fills : Fills ps d ms d') (slots : s.HasSlots ps) {p : Slot σ} (hp : p ∈ ps) :
    Given p.holds (p.get d) (valuesOf ms p.name) (p.get d') := by
  induction fills with
  | nil => exact .kept _
  | other spelled unknown _ ih =>
    rw [valuesOf_cons_of_ne spelled (unknown p hp).symm]
    exact ih
  | @slot d d' key v ms q b listed spelled empty holds _ ih =>
    by_cases same : p.name = q.name
    · obtain rfl := slots.eq_of_name hp listed same
      rw [slots.get_put p hp] at ih
      rw [valuesOf_cons_of_spell spelled, empty]
      generalize valuesOf ms p.name = others, p.get d' = o at ih
      cases ih
      exact .put holds
    · rw [slots.get_other p hp q listed same] at ih
      rw [valuesOf_cons_of_ne spelled (Ne.symm same)]
      exact ih

theorem fills_of_given (slots : s.HasSlots ps) (keyed : Keyed ms)
    (given : ∀ p ∈ ps, Given p.holds (p.get d) (valuesOf ms p.name) (p.get d')) :
    Fills ps d ms d' := by
  induction ms generalizing d with
  | nil =>
    have same : d = d' := by
      apply slots.ext
      intro p hp
      have kept : Given p.holds (p.get d) [] (p.get d') := given p hp
      generalize p.get d = o, p.get d' = o' at kept
      cases kept
      rfl
    exact same ▸ .nil d
  | cons m ms ih =>
    obtain ⟨⟨name, spelled⟩, keyed⟩ := List.forall_mem_cons.mp keyed
    by_cases known : ∃ p ∈ ps, p.name = name
    · obtain ⟨p, hp, rfl⟩ := known
      have this := given p hp
      rw [valuesOf_cons_of_spell spelled] at this
      have filled : p.get d = none ∧ ∃ b, p.holds m.2 b ∧ valuesOf ms p.name = [] ∧
          p.get d' = some b := by
        generalize p.get d = o, valuesOf ms p.name = others, p.get d' = o' at this
        cases this with
        | put h => exact ⟨rfl, _, h, rfl, rfl⟩
      obtain ⟨empty, b, holds, alone, last⟩ := filled
      refine .slot hp spelled empty holds (ih keyed fun q hq => ?_)
      by_cases same : q.name = p.name
      · obtain rfl := slots.eq_of_name hq hp same
        rw [slots.get_put q hq, alone, last]
        exact .kept _
      · have other := given q hq
        rw [valuesOf_cons_of_ne spelled (Ne.symm same)] at other
        rw [slots.get_other q hq p hp same]
        exact other
    · have unknown : ∀ p ∈ ps, p.name ≠ name := fun p hp same => known ⟨p, hp, same⟩
      refine .other spelled unknown (ih keyed fun p hp => ?_)
      rw [← valuesOf_cons_of_ne spelled (unknown p hp).symm m.2 ms]
      exact given p hp

end Fills

section Keys
variable {first : Bool} {key : List Piece} {name : String} {text rest : List Char} {ts : List Token}

theorem nextKey_closing (laid : Laid (.closing .object :: ts) text) :
    ∃ rest, nextKey first text = .ok (none, '\x7d' :: rest) ∧ Laid ts rest := by
  obtain ⟨rest, shown, laid⟩ := laid.next
  refine ⟨rest, ?_, laid⟩
  unfold nextKey
  rw [shown]
  rfl

theorem nextKey_key (spelled : Piece.Spell key name)
    (laid : Laid (separator first ++ (.string key :: ts)) text) :
    ∃ rest, nextKey first text = .ok (some name, rest) ∧ Laid ts rest := by
  unfold nextKey
  cases first with
  | true =>
    obtain ⟨rest, shown, laid⟩ := laid.next
    rw [Token.text_string_append] at shown
    refine ⟨rest, ?_, laid⟩
    simp [shown, string_spelled spelled, Except.map]
  | false =>
    obtain ⟨left, comma, laid⟩ := laid.next
    obtain ⟨rest, shown, laid⟩ := laid.next
    rw [Token.text_string_append] at shown
    refine ⟨rest, ?_, laid⟩
    rw [comma]
    simp [Token.text, shown, string_spelled spelled, Except.map]

theorem map_string_ne {cs : List Char} :
    (string cs).map (fun (s, left) => (some s, left)) ≠ .ok (none, rest) := by
  intro h
  cases read : string cs with
  | error r => rw [read] at h; cases h
  | ok p => rw [read] at h; cases h

theorem laid_of_nextKey_none (h : nextKey first text = .ok (none, rest)) :
    ∃ more, rest = '\x7d' :: more ∧ ∀ ts, Laid ts more → Laid (.closing .object :: ts) text := by
  unfold nextKey at h
  split at h
  · cases h
  next c more shown =>
    split at h
    next brace =>
      subst brace
      obtain ⟨-, rfl⟩ := Prod.mk.inj (Except.ok.inj h)
      exact ⟨more, rfl, fun ts laid => laid_of_next shown laid⟩
    split at h
    · split at h
      · exact absurd h map_string_ne
      · cases h
    split at h
    · split at h
      · cases h
      · split at h
        · exact absurd h map_string_ne
        split at h <;> cases h
    · cases h

theorem exists_key_of_map {cs : List Char}
    (h : (string cs).map (fun (s, left) => (some s, left)) = .ok (some name, rest)) :
    ∃ key, Piece.Spell key name ∧ cs = key.flatMap Piece.text ++ '"' :: rest := by
  cases read : string cs with
  | error r => rw [read] at h; cases h
  | ok p =>
    rw [read] at h
    obtain ⟨named, rfl⟩ := Prod.mk.inj (Except.ok.inj h)
    obtain rfl := Option.some.inj named
    exact string_eq_ok_iff.mp read

theorem laid_of_nextKey_some (h : nextKey first text = .ok (some name, rest)) :
    ∃ key, Piece.Spell key name ∧
      ∀ ts, Laid ts rest → Laid (separator first ++ (.string key :: ts)) text := by
  unfold nextKey at h
  split at h
  · cases h
  next c more shown =>
    split at h
    · cases h
    split at h
    next start =>
      subst start
      split at h
      next quote =>
        subst quote
        obtain ⟨key, spelled, rfl⟩ := exists_key_of_map h
        refine ⟨key, spelled, fun ts laid => laid_of_next ?_ laid⟩
        rw [shown, Token.text_string_append]
      · cases h
    next start =>
      obtain rfl := Bool.eq_false_iff.mpr start
      split at h
      next comma =>
        subst comma
        split at h
        · cases h
        next d left shown' =>
          split at h
          next quote =>
            subst quote
            obtain ⟨key, spelled, rfl⟩ := exists_key_of_map h
            refine ⟨key, spelled, fun ts laid => laid_of_next shown (laid_of_next ?_ laid)⟩
            rw [shown', Token.text_string_append]
          split at h <;> cases h
      · cases h

theorem colon_laid (laid : Laid (.colon :: ts) text) :
    ∃ rest, colon text = .ok rest ∧ Laid ts rest := by
  obtain ⟨rest, shown, laid⟩ := laid.next
  refine ⟨rest, ?_, laid⟩
  unfold colon
  rw [shown]
  rfl

theorem laid_of_colon (h : colon text = .ok rest) (laid : Laid ts rest) :
    Laid (.colon :: ts) text := by
  unfold colon at h
  split at h
  · cases h
  next c more shown =>
    split at h
    next same =>
      subst same
      obtain rfl := Except.ok.inj h
      exact laid_of_next shown laid
    · cases h

end Keys

def memberTokens (first : Bool) : List Member → List Token
  | [] => [.closing .object]
  | (key, v) :: rest =>
    separator first ++ (.string key :: .colon :: (v.tokens ++ Tree.moreMembers rest))

theorem inObject_eq_memberTokens (ms : List Member) : Tree.inObject ms = memberTokens true ms := by
  cases ms <;> rfl

theorem moreMembers_eq_memberTokens (ms : List Member) :
    Tree.moreMembers ms = memberTokens false ms := by
  cases ms <;> rw [Tree.moreMembers] <;> rfl

theorem memberTokens_cons_append (first : Bool) (m : Member) (ms : List Member) (ts : List Token) :
    memberTokens first (m :: ms) ++ ts = separator first ++
      (.string m.1 :: .colon :: (m.2.tokens ++ (Tree.moreMembers ms ++ ts))) := by
  rw [memberTokens, List.append_assoc, List.cons_append, List.cons_append, List.append_assoc]

section Fields
variable {s : Shape σ α} {ps : List (Slot σ)} {name : String}

theorem find_cases {fs : List (Field σ)} (fields : List.Forall₂ Field.IsSlot fs ps)
    (name : String) :
    (fs.find? (fun f => f.name = name) = none ∧ ∀ p ∈ ps, p.name ≠ name) ∨
      ∃ f, ∃ p ∈ ps, fs.find? (fun f => f.name = name) = some f ∧ p.name = name ∧ f.IsSlot p := by
  induction fields with
  | nil => exact .inl ⟨rfl, fun p hp => absurd hp List.not_mem_nil⟩
  | @cons f p fs ps first _ ih =>
    by_cases same : f.name = name
    · refine .inr ⟨f, p, List.mem_cons_self, ?_, first.1.symm.trans same, first⟩
      exact List.find?_cons_of_pos (decide_eq_true same)
    · have skip : (f :: fs).find? (fun f => f.name = name) = fs.find? (fun f => f.name = name) :=
        List.find?_cons_of_neg (by rwa [decide_eq_true_iff])
      rw [skip]
      rcases ih with ⟨missing, other⟩ | ⟨g, q, hq, found, rest⟩
      · exact .inl ⟨missing, List.forall_mem_cons.mpr ⟨first.1 ▸ same, other⟩⟩
      · exact .inr ⟨g, q, List.mem_cons_of_mem p hq, found, rest⟩

theorem Shape.HasSlots.find_eq_none (slots : s.HasSlots ps) (unknown : ∀ p ∈ ps, p.name ≠ name) :
    s.fields.find? (fun f => f.name = name) = none := by
  rcases find_cases slots.fields name with ⟨missing, -⟩ | ⟨f, p, hp, -, same, -⟩
  · exact missing
  · exact absurd same (unknown p hp)

theorem Shape.HasSlots.exists_field (slots : s.HasSlots ps) {p : Slot σ} (hp : p ∈ ps) :
    ∃ f, s.fields.find? (fun f => f.name = p.name) = some f ∧ f.IsSlot p := by
  rcases find_cases slots.fields p.name with ⟨-, unknown⟩ | ⟨f, q, hq, found, same, slot⟩
  · exact absurd rfl (unknown p hp)
  · obtain rfl := slots.eq_of_name hq hp same
    exact ⟨f, found, slot⟩

end Fields

section Members
variable {s : Shape σ α} {ps : List (Slot σ)} {first : Bool} {d d' : σ} {text rest : List Char}

theorem members_closing {left : List Char} (h : nextKey first text = .ok (none, left)) :
    s.members first d text = .done d left := by
  rw [Shape.members]
  split
  next h' => cases h.symm.trans h'
  next h' =>
    obtain ⟨-, rfl⟩ := Prod.mk.inj (Except.ok.inj (h.symm.trans h'))
    rfl
  next h' => cases h.symm.trans h'

theorem members_other {name : String} {key value left : List Char}
    (h : nextKey first text = .ok (some name, key))
    (missing : s.fields.find? (fun f => f.name = name) = none) (hc : colon key = .ok value)
    (hv : skipValue value = .ok left) : s.members first d text = s.members false d left := by
  rw [Shape.members.eq_def s first]
  split
  next h' => cases h.symm.trans h'
  next h' => cases h.symm.trans h'
  next h' =>
    obtain ⟨named, rfl⟩ := Prod.mk.inj (Except.ok.inj (h.symm.trans h'))
    obtain rfl := Option.some.inj named
    split
    next =>
      split
      next h' => cases hc.symm.trans h'
      next h' =>
        obtain rfl := Except.ok.inj (hc.symm.trans h')
        split
        next h' => cases hv.symm.trans h'
        next h' => rw [Except.ok.inj (hv.symm.trans h')]
    next found => cases missing.symm.trans found

theorem members_field {name : String} {key value left : List Char} {f : Field σ} {put : σ → σ}
    (h : nextKey first text = .ok (some name, key))
    (found : s.fields.find? (fun f => f.name = name) = some f) (empty : f.filled d = false)
    (hc : colon key = .ok value) (hv : f.reader.read value = .ok (put, left)) :
    s.members first d text = s.members false (put d) left := by
  rw [Shape.members.eq_def s first]
  split
  next h' => cases h.symm.trans h'
  next h' => cases h.symm.trans h'
  next h' =>
    obtain ⟨named, rfl⟩ := Prod.mk.inj (Except.ok.inj (h.symm.trans h'))
    obtain rfl := Option.some.inj named
    split
    next missing => cases found.symm.trans missing
    next found' =>
      obtain rfl := Option.some.inj (found.symm.trans found')
      rw [if_neg (Bool.eq_false_iff.mp empty)]
      split
      next h' => cases hc.symm.trans h'
      next h' =>
        obtain rfl := Except.ok.inj (hc.symm.trans h')
        split
        next h' => cases hv.symm.trans h'
        next h' =>
          obtain ⟨rfl, rfl⟩ := Prod.mk.inj (Except.ok.inj (hv.symm.trans h'))
          rfl

theorem members_laid (slots : s.HasSlots ps) {ms : List Member} (fills : Fills ps d ms d')
    {ts : List Token} (laid : Laid (memberTokens first ms ++ ts) text) :
    ∃ rest, s.members first d text = .done d' ('\x7d' :: rest) ∧ Laid ts rest := by
  induction fills generalizing first text with
  | nil =>
    obtain ⟨rest, closing, laid⟩ := nextKey_closing laid
    exact ⟨rest, members_closing closing, laid⟩
  | other spelled unknown _ ih =>
    rw [memberTokens_cons_append] at laid
    obtain ⟨key, named, laid⟩ := nextKey_key spelled laid
    obtain ⟨value, hc, laid⟩ := colon_laid laid
    obtain ⟨left, hv, laid⟩ := skipValue_laid (Tree.ends_moreMembers _ ts) laid
    rw [moreMembers_eq_memberTokens] at laid
    obtain ⟨rest, others, laid⟩ := ih laid
    exact ⟨rest, (members_other named (slots.find_eq_none unknown) hc hv).trans others, laid⟩
  | @slot d _ _ v _ p b listed spelled empty holds _ ih =>
    obtain ⟨f, found, -, filled, reads⟩ := slots.exists_field listed
    have empty : f.filled d = false := by rw [filled, empty, Option.isSome_none]
    rw [memberTokens_cons_append] at laid
    obtain ⟨key, named, laid⟩ := nextKey_key spelled laid
    obtain ⟨value, hc, laid⟩ := colon_laid laid
    obtain ⟨left, hv, laid⟩ := reads.complete ⟨b, holds, rfl⟩ (Tree.ends_moreMembers _ ts) laid
    rw [moreMembers_eq_memberTokens] at laid
    obtain ⟨rest, others, laid⟩ := ih laid
    exact ⟨rest, (members_field named found empty hc hv).trans others, laid⟩

theorem exists_members (slots : s.HasSlots ps) (h : s.members first d text = .done d' rest) :
    ∃ ms more, Fills ps d ms d' ∧ rest = '\x7d' :: more ∧
      ∀ ts, Laid ts more → Laid (memberTokens first ms ++ ts) text := by
  fun_induction Shape.members s first d text with
  | case1 => cases h
  | case2 first d cs left hk =>
    obtain ⟨rfl, rfl⟩ := Reading.done.inj h
    obtain ⟨more, rfl, laid⟩ := laid_of_nextKey_none hk
    exact ⟨[], more, .nil d, rfl, laid⟩
  | case3 => cases h
  | case4 => cases h
  | case5 first d cs name left hk missing value hc after hv ih =>
    obtain ⟨ms, more, fills, rfl, others⟩ := ih h
    obtain ⟨key, spelled, named⟩ := laid_of_nextKey_some hk
    obtain ⟨v, shown⟩ := exists_value hv
    have unknown : ∀ p ∈ ps, p.name ≠ name := by
      rintro p hp rfl
      obtain ⟨f, found, -⟩ := slots.exists_field hp
      cases missing.symm.trans found
    refine ⟨(key, v) :: ms, more, .other spelled unknown fills, rfl, fun ts laid => ?_⟩
    rw [memberTokens_cons_append, moreMembers_eq_memberTokens]
    exact named _ (laid_of_colon hc (shown _ (others ts laid)))
  | case6 => cases h
  | case7 => cases h
  | case8 => cases h
  | case9 first d cs name left hk f hf unfilled value hc put after hv ih =>
    obtain ⟨ms, more, fills, rfl, others⟩ := ih h
    obtain ⟨key, spelled, named⟩ := laid_of_nextKey_some hk
    rcases find_cases slots.fields name with ⟨missing, -⟩ | ⟨g, p, hp, found, rfl, -, filled, reads⟩
    · cases missing.symm.trans hf
    · obtain rfl := Option.some.inj (found.symm.trans hf)
      obtain ⟨v, ⟨b, holds, rfl⟩, shown⟩ := reads.sound hv
      have empty : p.get d = none := by
        rw [filled, Bool.not_eq_true, Option.isSome_eq_false_iff, Option.isNone_iff_eq_none] at unfilled
        exact unfilled
      refine ⟨(key, v) :: ms, more, .slot hp spelled empty holds fills, rfl, fun ts laid => ?_⟩
      rw [memberTokens_cons_append, moreMembers_eq_memberTokens]
      exact named _ (laid_of_colon hc (shown _ (others ts laid)))

end Members

section Elements
variable {s : Shape σ α} {ps : List (Slot σ)} {index : Nat} {d d' : σ} {text left rest : List Char}

theorem closeList_eq_none_iff : closeList text = (rest, none) ↔ skipBlanks text = ']' :: rest := by
  constructor
  · intro h
    unfold closeList at h
    split at h
    · cases h
    next c more shown =>
      split_ifs at h with bracket comma
      · subst bracket
        obtain ⟨rfl, -⟩ := Prod.mk.inj h
        exact shown
      all_goals cases h
  · intro shown
    unfold closeList
    rw [shown]
    rfl

theorem elements_laid {fs : List (Field σ)} (fields : List.Forall₂ Field.IsSlot fs ps)
    {items : List Tree} (lists : Lists ps d items d') (enough : s.required ≤ index + items.length)
    {ts : List Token} (laid : Laid (itemTokens (index = 0) items ++ ts) text) :
    ∃ left rest, s.elements index d fs text = .done d' left ∧ closeList left = (rest, none) ∧
      Laid ts rest := by
  induction lists generalizing index fs text with
  | stop ps d =>
    cases fields with
    | nil =>
      obtain ⟨rest, shown, laid⟩ := laid.next
      exact ⟨text, rest, rfl, closeList_eq_none_iff.mpr shown, laid⟩
    | cons first others =>
      obtain ⟨rest, closing, laid⟩ := nextItem_closing (index = 0) laid
      refine ⟨']' :: rest, rest, ?_, rfl, laid⟩
      unfold Shape.elements
      simp only [closing]
      exact if_neg (Nat.not_lt.mpr enough)
  | @item _ _ _ items _ _ _ holds _ ih =>
    cases fields with
    | cons first others =>
      rw [itemTokens_cons_append] at laid
      obtain ⟨goesOn, next, laid⟩ := nextItem_item laid
      obtain ⟨after, read, laid⟩ := first.2.2.complete ⟨_, holds, rfl⟩ (Tree.ends_moreItems _ ts) laid
      rw [moreItems_eq] at laid
      have enough : s.required ≤ index + 1 + items.length := by
        rw [List.length_cons, Nat.add_comm _ 1, ← Nat.add_assoc] at enough
        exact enough
      obtain ⟨left, rest, more, closed, laid⟩ := ih others enough laid
      refine ⟨left, rest, ?_, closed, laid⟩
      unfold Shape.elements
      simp only [next, read]
      exact more

theorem exists_elements {fs : List (Field σ)} (fields : List.Forall₂ Field.IsSlot fs ps)
    (enough : s.required ≤ index + ps.length) (h : s.elements index d fs text = .done d' left)
    (closed : closeList left = (rest, none)) :
    ∃ items, Lists ps d items d' ∧ s.required ≤ index + items.length ∧
      ∀ ts, Laid ts rest → Laid (itemTokens (index = 0) items ++ ts) text := by
  induction fields generalizing index d text with
  | nil =>
    unfold Shape.elements at h
    obtain ⟨rfl, rfl⟩ := Reading.done.inj h
    have shown := closeList_eq_none_iff.mp closed
    exact ⟨[], .stop [] d, enough, fun ts laid => laid_of_next shown laid⟩
  | @cons f p fs ps first _ ih =>
    unfold Shape.elements at h
    split at h
    · cases h
    next after next =>
      split at h
      · cases h
      next long =>
        obtain ⟨rfl, rfl⟩ := Reading.done.inj h
        obtain ⟨more, rfl, laid⟩ := laid_of_nextItem_false next
        obtain ⟨rfl, -⟩ := Prod.mk.inj closed
        exact ⟨[], .stop _ d, Nat.not_lt.mp long, laid⟩
    next after next =>
      split at h
      · cases h
      next put left' read =>
        obtain ⟨v, ⟨b, holds, rfl⟩, shown⟩ := first.2.2.sound read
        rw [List.length_cons, Nat.add_comm _ 1, ← Nat.add_assoc] at enough
        obtain ⟨items, lists, long, others⟩ := ih enough h
        refine ⟨v :: items, .item holds lists, ?_, fun ts laid => ?_⟩
        · rw [List.length_cons, Nat.add_comm _ 1, ← Nat.add_assoc]
          exact long
        · rw [itemTokens_cons_append, moreItems_eq]
          exact laid_of_nextItem_true next _ (shown _ (others ts laid))

end Elements

section Whole
variable {s : Shape σ α} {ps : List (Slot σ)} {text : List Char}

theorem close_complete_eq_ok_iff {r : Reading σ} {finish : σ → Except String α}
    {ending : List Char → List Char × Option Reject} {a : α} {rest : List Char} :
    (r.complete finish).close ending = .ok (a, rest) ↔
      ∃ d left, r = .done d left ∧ finish d = .ok a ∧ ending left = (rest, none) := by
  constructor
  · intro h
    cases r with
    | done d left =>
      refine ⟨d, left, rfl, ?_⟩
      unfold Reading.complete at h
      simp only at h
      split at h
      · cases h
      next b finished =>
        unfold Reading.close at h
        simp only at h
        split at h
        next ended =>
          obtain ⟨rfl, rfl⟩ := Prod.mk.inj (Except.ok.inj h)
          exact ⟨finished, ended⟩
        · cases h
    | flawed => cases h
    | rejected => cases h
  · rintro ⟨d, left, rfl, finished, ended⟩
    unfold Reading.complete
    simp only [finished]
    unfold Reading.close
    simp only [ended]

theorem Shape.HasSlots.read_laid (slots : s.HasSlots ps) {v : Tree} {a : α} (holds : s.Holds ps v a)
    {ts : List Token} (laid : Laid (v.tokens ++ ts) text) :
    ∃ rest, s.read text = .ok (a, rest) ∧ Laid ts rest := by
  unfold Shape.read
  cases holds with
  | @object ms d _ keyed given finished =>
    have fills : Fills ps s.blank ms d := by
      apply fills_of_given slots keyed
      intro p hp
      rw [slots.get_blank p hp]
      exact given p hp
    rw [Tree.tokens_object, inObject_eq_memberTokens] at laid
    obtain ⟨left, shown, laid⟩ := laid.next
    obtain ⟨rest, read, laid⟩ := members_laid slots fills laid
    refine ⟨rest, ?_, laid⟩
    rw [shown]
    exact close_complete_eq_ok_iff.mpr ⟨d, _, read, finished, rfl⟩
  | list enough lists finished =>
    rw [Tree.tokens_list, inList_eq] at laid
    obtain ⟨left, shown, laid⟩ := laid.next
    rw [← Nat.zero_add (List.length _)] at enough
    obtain ⟨after, rest, read, closed, laid⟩ := elements_laid slots.fields lists enough laid
    refine ⟨rest, ?_, laid⟩
    rw [shown]
    exact close_complete_eq_ok_iff.mpr ⟨_, after, read, finished, closed⟩

theorem Shape.HasSlots.exists_tree (slots : s.HasSlots ps) {a : α} {rest : List Char}
    (h : s.read text = .ok (a, rest)) : ∃ v, s.Holds ps v a ∧
      ∀ ts, Laid ts rest → Laid (v.tokens ++ ts) text := by
  unfold Shape.read at h
  split at h
  · cases h
  next c more shown =>
    split_ifs at h with bracket brace
    · subst bracket
      obtain ⟨d, left, read, finished, closed⟩ := close_complete_eq_ok_iff.mp h
      have enough : s.required ≤ 0 + ps.length := by
        rw [Nat.zero_add]
        exact slots.required
      obtain ⟨items, lists, long, laid⟩ := exists_elements slots.fields enough read closed
      rw [Nat.zero_add] at long
      refine ⟨.list items, .list long lists finished, fun ts rest => ?_⟩
      rw [Tree.tokens_list, inList_eq]
      exact laid_of_next shown (laid ts rest)
    · subst brace
      obtain ⟨d, left, read, finished, closed⟩ := close_complete_eq_ok_iff.mp h
      obtain ⟨ms, more, fills, rfl, laid⟩ := exists_members slots read
      obtain ⟨rfl, -⟩ := Prod.mk.inj closed
      have given : ∀ p ∈ ps, Given p.holds none (valuesOf ms p.name) (p.get d) := by
        intro p hp
        rw [← slots.get_blank p hp]
        exact fills.given slots hp
      refine ⟨.object ms, .object fills.keyed given finished, fun ts rest => ?_⟩
      rw [Tree.tokens_object, inObject_eq_memberTokens]
      exact laid_of_next shown (laid ts rest)

theorem Shape.HasSlots.reads (slots : s.HasSlots ps) : s.reader.Reads (s.Holds ps) where
  complete := fun holds _ laid => slots.read_laid holds laid
  sound := fun h => slots.exists_tree h

end Whole

end FlowLoops.Json
