import FlowLoops.Proofs.Loop.Forest

/-! The tree that the search leaves behind. The parent of a block is the one before it on its way,
and every loop runs along parents. Ways to two blocks have a part in common at their start and
nothing after it, and this is why two loops share a segment or nothing. -/

namespace FlowLoops

section Lists
variable {α : Type} {p q q' r r' s s' : List α}

theorem exists_longest_prefix (w w' : List α) :
    ∃ p, p <+: w ∧ p <+: w' ∧ ∀ q, q <+: w → q <+: w' → q <+: p := by
  induction w generalizing w' with
  | nil => exact ⟨[], List.nil_prefix, List.nil_prefix, fun q hq _ => hq⟩
  | cons a rest ih =>
    cases w' with
    | nil => exact ⟨[], List.nil_prefix, List.nil_prefix, fun q _ hq' => hq'⟩
    | cons b rest' =>
      by_cases same : a = b
      · subst same
        obtain ⟨p, hp, hp', longest⟩ := ih rest'
        refine ⟨a :: p, (List.prefix_cons_inj a).mpr hp, (List.prefix_cons_inj a).mpr hp', ?_⟩
        intro q hq hq'
        rcases List.prefix_cons_iff.mp hq with rfl | ⟨t, rfl, ht⟩
        · exact List.nil_prefix
        · have ht' := (List.prefix_cons_inj a).mp hq'
          exact (List.prefix_cons_inj a).mpr (longest t ht ht')
      · refine ⟨[], List.nil_prefix, List.nil_prefix, fun q hq hq' => ?_⟩
        rcases List.prefix_cons_iff.mp hq with rfl | ⟨t, rfl, -⟩
        · exact List.nil_prefix
        · exact absurd (List.cons_prefix_cons.mp hq').1 same

theorem suffix_append_cases (h : s <:+ p ++ r) : s <:+ r ∨ ∃ q, q <:+ p ∧ s = q ++ r := by
  obtain ⟨front, split⟩ := h
  rcases List.append_eq_append_iff.mp split with ⟨q, rfl, rfl⟩ | ⟨q, rfl, rfl⟩
  · exact .inr ⟨q, List.suffix_append front q, rfl⟩
  · exact .inl (List.suffix_append q s)

theorem notMem_rest (nodup : (p ++ r).Nodup) (shared : ∀ b ∈ p ++ r, b ∈ s → b ∈ p) :
    ∀ b ∈ r, b ∉ s := by
  intro b hr hb
  have hp : b ∈ p := shared b (List.mem_append_right p hr) hb
  exact (List.nodup_append.mp nodup).2.2 b hp b hr rfl

def Overlap (s s' : List α) : Prop :=
  ∃ common, common <:+: s ∧ common <:+: s' ∧ ∀ b, b ∈ common ↔ b ∈ s ∧ b ∈ s'

theorem Overlap.symm (h : Overlap s s') : Overlap s' s := by
  obtain ⟨common, part, part', shared⟩ := h
  exact ⟨common, part', part, fun b => (shared b).trans and_comm⟩

theorem overlap_of_disjoint (apart : ∀ b ∈ s, b ∉ s') : Overlap s s' := by
  refine ⟨[], List.nil_infix, List.nil_infix, fun b => ?_⟩
  constructor
  · intro hb
    cases hb
  · rintro ⟨hb, hb'⟩
    exact absurd hb' (apart b hb)

theorem overlap_append (h : q <:+ q') (apart : ∀ b ∈ r, b ∉ q' ++ r') :
    Overlap (q ++ r) (q' ++ r') := by
  have part : q <:+: q ++ r := (List.prefix_append q r).isInfix
  have part' : q <:+: q' ++ r' := h.isInfix.trans (List.prefix_append q' r').isInfix
  refine ⟨q, part, part', fun b => ?_⟩
  constructor
  · intro hb
    exact ⟨part.subset hb, part'.subset hb⟩
  · rintro ⟨hb, hb'⟩
    exact (List.mem_append.mp hb).resolve_right fun hr => apart b hr hb'

theorem overlap_of_suffixes (hs : s <:+ p ++ r) (hs' : s' <:+ p ++ r')
    (apart : ∀ b ∈ r, b ∉ p ++ r') (apart' : ∀ b ∈ r', b ∉ p ++ r) : Overlap s s' := by
  -- a suffix that stays behind `p` meets the other list nowhere; two that do not share the shorter
  -- of the parts of `p` that they reach
  rcases suffix_append_cases hs with outside | ⟨q, hq, rfl⟩
  · exact overlap_of_disjoint fun b hb hb' => apart b (outside.subset hb) (hs'.subset hb')
  rcases suffix_append_cases hs' with outside' | ⟨q', hq', rfl⟩
  · exact (overlap_of_disjoint fun b hb hb' => apart' b (outside'.subset hb) (hs.subset hb')).symm
  rcases List.suffix_or_suffix_of_suffix hq hq' with le | le
  · exact overlap_append le fun b hr hb => apart b hr (hs'.subset hb)
  · exact (overlap_append le fun b hr hb => apart' b hr (hs.subset hb)).symm

end Lists

variable {g : Graph} {way : BlockId → List BlockId} {found : List BackEdge} {a b u v : BlockId}

def parentAlong (g : Graph) (way : BlockId → List BlockId) (b : BlockId) : Option BlockId :=
  if g.Owns b then (way b).dropLast.getLast? else none

theorem IsWay.mem_self (hw : IsWay g way u) : u ∈ way u := List.mem_of_getLast? hw.last

theorem IsWay.way_prefix (hw : IsWay g way u) (hb : b ∈ way u) : way b <+: way u := by
  obtain ⟨front, rest, split⟩ := List.append_of_mem hb
  rw [hw.initial front b rest split, split]
  exact ⟨rest, by rw [List.append_assoc, List.singleton_append]⟩

theorem IsWay.parent_eq_some_iff (hw : IsWay g way b) :
    parentAlong g way b = some a ↔ ∃ front, way b = front ++ [a, b] := by
  have owned : g.Owns b := hw.owned b hw.mem_self
  rw [parentAlong, if_pos owned]
  constructor
  · intro last
    obtain ⟨front, before⟩ := List.getLast?_eq_some_iff.mp last
    obtain ⟨all, whole⟩ := List.getLast?_eq_some_iff.mp hw.last
    refine ⟨front, ?_⟩
    rw [whole, List.dropLast_concat] at before
    rw [whole, before, List.append_assoc, List.singleton_append]
  · rintro ⟨front, split⟩
    have before : way b = front ++ [a] ++ [b] := by
      rw [split, List.append_assoc, List.singleton_append]
    rw [before, List.dropLast_concat, List.getLast?_concat]

theorem owns_of_parent (h : parentAlong g way b = some a) : g.Owns b := by
  by_contra foreign
  rw [parentAlong, if_neg foreign] at h
  cases h

namespace Forest

theorem chain_parent (hf : Forest g way found) (hu : g.Owns u) :
    (way u).IsChain fun a b => parentAlong g way b = some a := by
  have hw := hf.isWay u hu
  rw [List.isChain_iff_forall_rel_of_append_cons_cons]
  intro a b front rest split
  rw [List.append_cons] at split
  have owned : g.Owns b := hw.owned b (split ▸ by simp)
  have way_b := hw.initial (front ++ [a]) b rest split
  rw [List.append_assoc, List.singleton_append] at way_b
  exact (hf.isWay b owned).parent_eq_some_iff.mpr ⟨front, way_b⟩

theorem adjacent_of_parent (hf : Forest g way found) (h : parentAlong g way b = some a) :
    g.Adjacent a b := by
  have hw := hf.isWay b (owns_of_parent h)
  obtain ⟨front, split⟩ := hw.parent_eq_some_iff.mp h
  obtain ⟨m, -, walk⟩ := hw.walk
  have chain := walk.chain
  rw [split] at chain
  exact List.isChain_pair.mp chain.right_of_append

theorem acyclic_parent (hf : Forest g way found) :
    Acyclic fun a b => parentAlong g way b = some a := by
  refine acyclic_of_lt (fun b => (way b).length) fun a b h => ?_
  have hw := hf.isWay b (owns_of_parent h)
  obtain ⟨front, split⟩ := hw.parent_eq_some_iff.mp h
  have way_a : way a = front ++ [a] := hw.initial front a [b] split
  simp [split, way_a]

theorem exists_common_start (hf : Forest g way found) (hu : g.Owns u) (hv : g.Owns v) :
    ∃ p r r', way u = p ++ r ∧ way v = p ++ r' ∧
      (∀ b ∈ r, b ∉ p ++ r') ∧ ∀ b ∈ r', b ∉ p ++ r := by
  obtain ⟨p, ⟨r, hr⟩, ⟨r', hr'⟩, longest⟩ := exists_longest_prefix (way u) (way v)
  have hwu := hf.isWay u hu
  have hwv := hf.isWay v hv
  -- a block on both ways brings its own way along, and that is a start of both
  have shared : ∀ b ∈ way u, b ∈ way v → b ∈ p := by
    intro b hb hb'
    have start : way b <+: p := longest _ (hwu.way_prefix hb) (hwv.way_prefix hb')
    exact start.subset (hf.isWay b (hwu.owned b hb)).mem_self
  have nodup := hwu.nodup
  have nodup' := hwv.nodup
  rw [← hr, ← hr'] at shared
  rw [← hr] at nodup
  rw [← hr'] at nodup'
  refine ⟨p, r, r', hr.symm, hr'.symm, notMem_rest nodup shared, ?_⟩
  exact notMem_rest nodup' fun b hb' hb => shared b hb hb'

theorem body_suffix (hf : Forest g way found) {l : Loop} (hl : l ∈ found.map (loopAlong way)) :
    ∃ u, g.Owns u ∧ l.latch? = some u ∧ l.body <:+ way u := by
  obtain ⟨⟨u, v⟩, he, rfl⟩ := List.mem_map.mp hl
  obtain ⟨adjacent, mem⟩ := (hf.back_iff u v).mp he
  obtain ⟨front, rest, split, -, loop⟩ := (hf.isWay u adjacent.owns_left).body_loopAlong mem
  refine ⟨u, adjacent.owns_left, (hf.ends_loopAlong he).1, front, ?_⟩
  rw [loop, Loop.body, List.dropLast_concat, split]

end Forest

/-- One parent or none for each block, by edges of the graph and without a cycle, such that all
loops run from parent to child. -/
structure SearchTree (g : Graph) (loops : List Loop) (parent : BlockId → Option BlockId) :
    Prop where
  adjacent : ∀ a b, parent b = some a → g.Adjacent a b
  acyclic : Acyclic fun a b => parent b = some a
  along : ∀ l ∈ loops, l.body.IsChain fun a b => parent b = some a

theorem Forest.searchTree (hf : Forest g way found) :
    SearchTree g (found.map (loopAlong way)) (parentAlong g way) := by
  refine ⟨fun a b => hf.adjacent_of_parent, hf.acyclic_parent, fun l hl => ?_⟩
  obtain ⟨u, owned, -, part⟩ := hf.body_suffix hl
  exact (hf.chain_parent owned).suffix part

theorem loops_share_a_tree (hg : g.Reachable) :
    ∃ loops, g.loops = .ok loops ∧ (∃ parent, SearchTree g loops parent) ∧
      (∀ l ∈ loops, ∀ m ∈ loops, Overlap l.body m.body) ∧
      ∀ l ∈ loops, ∀ m ∈ loops, l.latch? = m.latch? →
        l.body <:+ m.body ∨ m.body <:+ l.body := by
  obtain ⟨way, found, hf, detected⟩ := exists_forest hg
  refine ⟨_, detected, ⟨_, hf.searchTree⟩, fun l hl m hm => ?_, fun l hl m hm same => ?_⟩
  · obtain ⟨u, hu, -, part⟩ := hf.body_suffix hl
    obtain ⟨v, hv, -, part'⟩ := hf.body_suffix hm
    obtain ⟨p, r, r', split, split', apart, apart'⟩ := hf.exists_common_start hu hv
    exact overlap_of_suffixes (split ▸ part) (split' ▸ part') apart apart'
  · obtain ⟨u, -, latch, part⟩ := hf.body_suffix hl
    obtain ⟨v, -, latch', part'⟩ := hf.body_suffix hm
    obtain rfl : u = v := Option.some.inj (latch.symm.trans (same.trans latch'))
    exact List.suffix_or_suffix_of_suffix part part'

theorem tree_of_nested : Graph.nested.Reachable ∧
    (∃ parent : BlockId → Option BlockId, parent ⟨0, 1⟩ = some ⟨0, 0⟩ ∧
      parent ⟨0, 2⟩ = some ⟨0, 1⟩ ∧ parent ⟨0, 3⟩ = some ⟨0, 1⟩) ∧
    Overlap [(⟨0, 1⟩ : BlockId), ⟨0, 2⟩] [⟨0, 0⟩, ⟨0, 1⟩, ⟨0, 3⟩] := by
  obtain ⟨loops, detected, ⟨parent, tree⟩, overlap, -⟩ := loops_share_a_tree Graph.reachable_nested
  obtain rfl := Except.ok.inj (detected.symm.trans Graph.loops_nested)
  have inner := tree.along ⟨[⟨0, 1⟩, ⟨0, 2⟩, ⟨0, 1⟩]⟩ (by simp)
  have outer := tree.along ⟨[⟨0, 0⟩, ⟨0, 1⟩, ⟨0, 3⟩, ⟨0, 0⟩]⟩ (by simp)
  have shared := overlap ⟨[⟨0, 1⟩, ⟨0, 2⟩, ⟨0, 1⟩]⟩ (by simp)
    ⟨[⟨0, 0⟩, ⟨0, 1⟩, ⟨0, 3⟩, ⟨0, 0⟩]⟩ (by simp)
  simp only [Loop.body, List.dropLast_cons_cons, List.dropLast_singleton, List.isChain_cons_cons]
    at inner outer shared
  exact ⟨Graph.reachable_nested, ⟨parent, outer.1, inner.1, outer.2.1⟩, shared⟩

end FlowLoops
