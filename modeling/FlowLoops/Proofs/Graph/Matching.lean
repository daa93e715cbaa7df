import FlowLoops.Graph.Matching
import FlowLoops.Proofs.Graph.Pairing
import Mathlib.Data.List.Perm.Subperm

/-! The search for a pairing finds one where there is one. What it has paired stays consistent from
block to block, and so a pairing is a consistent list of pairs that leaves no block out. -/

namespace FlowLoops
namespace Graph
variable {g h : Graph} {pairs : List (Nat × Nat)} {i j : Nat}

structure Fitting (g h : Graph) (pairs : List (Nat × Nat)) : Prop where
  alike : ∀ p ∈ pairs, ∃ a b, g.blocks[p.1]? = some a ∧ h.blocks[p.2]? = some b ∧ a.alike b = true
  joined : ∀ p ∈ pairs, ∀ q ∈ pairs, g.joined p.1 q.1 = h.joined p.2 q.2

theorem Fitting.subset {part : List (Nat × Nat)} (fitting : Fitting g h pairs)
    (sub : part ⊆ pairs) : Fitting g h part :=
  ⟨fun p hp => fitting.alike p (sub hp), fun p hp q hq => fitting.joined p (sub hp) q (sub hq)⟩

theorem fits_iff (fitting : Fitting g h pairs) :
    g.fits h pairs i j = true ↔ Fitting g h ((i, j) :: pairs) := by
  simp only [fits, Bool.and_eq_true, Option.any_eq_true, List.all_eq_true, beq_iff_eq]
  constructor
  · rintro ⟨⟨⟨a, ha, b, hb, alike⟩, loop⟩, others⟩
    refine ⟨List.forall_mem_cons.mpr ⟨⟨a, b, ha, hb, alike⟩, fitting.alike⟩, ?_⟩
    intro p hp q hq
    rcases List.mem_cons.mp hp with rfl | hp <;> rcases List.mem_cons.mp hq with rfl | hq
    · exact loop
    · exact (others q hq).1
    · exact (others p hp).2
    · exact fitting.joined p hp q hq
  · intro all
    obtain ⟨a, b, ha, hb, alike⟩ := all.alike (i, j) List.mem_cons_self
    refine ⟨⟨⟨a, ha, b, hb, alike⟩, ?_⟩, fun q hq => ⟨?_, ?_⟩⟩
    · exact all.joined _ List.mem_cons_self _ List.mem_cons_self
    · exact all.joined _ List.mem_cons_self q (List.mem_cons_of_mem _ hq)
    · exact all.joined q (List.mem_cons_of_mem _ hq) _ List.mem_cons_self

/-- The blocks left can be paired with free ones if and only if fitting pairs can be added. -/
theorem extend_iff (fitting : Fitting g h pairs) (todo free : List Nat) :
    g.extend h todo pairs free = true ↔
      ∃ added : List (Nat × Nat), added.map Prod.fst = todo ∧
        (added.map Prod.snd).Subperm free ∧ Fitting g h (added ++ pairs) := by
  induction todo generalizing pairs free with
  | nil =>
    refine iff_of_true rfl ⟨[], rfl, List.nil_subperm, fitting⟩
  | cons i rest ih =>
    simp only [extend, List.any_eq_true, Bool.and_eq_true]
    constructor
    · rintro ⟨j, hj, fits, goes_on⟩
      have next := (fits_iff fitting).mp fits
      obtain ⟨added, rfl, inside, all⟩ := (ih next (free.erase j)).mp goes_on
      refine ⟨(i, j) :: added, rfl, ?_, all.subset ?_⟩
      · exact (List.subperm_cons j).mpr inside |>.trans (List.perm_cons_erase hj).symm.subperm
      · simp
    · rintro ⟨added, keys, inside, all⟩
      match added, keys with
      | (_, j) :: added, rfl =>
        have hj : j ∈ free := inside.subset List.mem_cons_self
        have next : Fitting g h ((i, j) :: pairs) := all.subset (by simp)
        refine ⟨j, hj, (fits_iff fitting).mpr next, (ih next _).mpr ⟨added, rfl, ?_, ?_⟩⟩
        · exact (List.subperm_cons j).mp (inside.trans (List.perm_cons_erase hj).subperm)
        · exact all.subset (by simp)

theorem searchOrder_perm (g : Graph) (n : Nat) (picked left : List Nat) (length : left.length = n) :
    (g.searchOrder n picked left).Perm left := by
  induction n generalizing picked left with
  | zero => rw [List.length_eq_zero_iff.mp length, searchOrder]
  | succ n ih =>
    rw [searchOrder]
    split
    next none =>
      rw [Option.orElse_eq_none, List.head?_eq_none_iff] at none
      rw [none.2] at length
      cases length
    next i first =>
      have listed : i ∈ left := by
        rcases (Option.orElse_eq_some ..).mp first with found | ⟨-, head⟩
        · exact List.mem_of_find?_eq_some found
        · exact List.mem_of_mem_head? head
      have others := ih (i :: picked) (left.erase i) (by rw [List.length_erase_of_mem listed]; omega)
      exact (others.cons i).trans (List.perm_cons_erase listed).symm

theorem joined_iff (hg : g.Reachable) : g.joined i j = true ↔ 0 < g.multiplicity i j := by
  rw [joined, Option.any_eq_true, multiplicity, List.count_pos_iff]
  constructor
  · rintro ⟨a, ha, listed⟩
    rw [← Array.contains_toList, List.contains_iff_mem, hg.consistent.outgoing i a ha] at listed
    obtain ⟨e, he, rfl⟩ := List.mem_map.mp listed
    obtain ⟨inside, source⟩ := List.mem_filter.mp he
    obtain rfl := of_decide_eq_true source
    exact inside
  · intro he
    have inside : i < g.blocks.size := hg.consistent.source_lt _ he
    refine ⟨_, Array.getElem?_eq_getElem inside, ?_⟩
    rw [← Array.contains_toList, List.contains_iff_mem,
      hg.consistent.outgoing i _ (Array.getElem?_eq_getElem inside)]
    exact List.mem_map.mpr ⟨_, List.mem_filter.mpr ⟨he, decide_eq_true rfl⟩, rfl⟩

theorem size_outgoing (hg : g.Reachable) {a : Block} (ha : g.blocks[i]? = some a) :
    a.outgoing.size = g.outDegree i := by
  rw [← Array.length_toList, hg.consistent.outgoing i a ha, List.length_map, outDegree,
    List.countP_eq_length_filter]

theorem size_incoming (hg : g.Reachable) {a : Block} (ha : g.blocks[i]? = some a) :
    a.incoming.size = g.inDegree i := by
  rw [← Array.length_toList, hg.consistent.incoming i a ha, List.length_map, inDegree,
    List.countP_eq_length_filter]

section Stores
variable (hg : g.Reachable) (hh : h.Reachable)
include hg hh

theorem blocks_alike_iff (hi : i < g.blockCount) (hj : j < h.blockCount) :
    (∃ a b, g.blocks[i]? = some a ∧ h.blocks[j]? = some b ∧ a.alike b = true) ↔
      h.contents[j]? = g.contents[i]? ∧ h.outDegree j = g.outDegree i ∧
        h.inDegree j = g.inDegree i := by
  obtain ⟨a, ha⟩ : ∃ a, g.blocks[i]? = some a := ⟨_, Array.getElem?_eq_getElem hi⟩
  obtain ⟨b, hb⟩ : ∃ b, h.blocks[j]? = some b := ⟨_, Array.getElem?_eq_getElem hj⟩
  have alike : a.alike b = true ↔ h.contents[j]? = g.contents[i]? ∧
      h.outDegree j = g.outDegree i ∧ h.inDegree j = g.inDegree i := by
    simp only [Block.alike, Bool.and_eq_true, beq_iff_eq, size_outgoing hg ha, size_outgoing hh hb,
      size_incoming hg ha, size_incoming hh hb, contents, List.getElem?_map, Array.getElem?_toList,
      ha, hb, Option.map_some, Option.some.injEq, and_assoc]
    exact and_congr eq_comm (and_congr eq_comm eq_comm)
  rw [← alike]
  constructor
  · rintro ⟨a', b', ha', hb', same⟩
    rw [ha] at ha'
    rw [hb] at hb'
    cases ha'
    cases hb'
    exact same
  · exact fun same => ⟨a, b, ha, hb, same⟩

theorem Fitting.exists_pairing (fitting : Fitting g h pairs)
    (keys : (pairs.map Prod.fst).Perm (List.range g.blockCount))
    (values : (pairs.map Prod.snd).Subperm (List.range h.blockCount))
    (count : g.blockCount = h.blockCount) : Nonempty (Pairing g h) := by
  have partner (i : Fin g.blockCount) : ∃ j : Fin h.blockCount, (i.val, j.val) ∈ pairs := by
    obtain ⟨⟨_, j⟩, hp, rfl⟩ := List.mem_map.mp (keys.mem_iff.mpr (List.mem_range.mpr i.isLt))
    have inside := List.mem_range.mp (values.subset (List.mem_map_of_mem hp))
    exact ⟨⟨j, inside⟩, hp⟩
  choose f hf using partner
  have once : (pairs.map Prod.snd).Nodup := by
    obtain ⟨part, perm, sub⟩ := values
    exact perm.nodup_iff.mp (List.nodup_range.sublist sub)
  have injective : Function.Injective f := by
    intro i k same
    have pair := List.inj_on_of_nodup_map once (hf i) (hf k) (congrArg Fin.val same)
    exact Fin.ext (congrArg Prod.fst pair)
  have bijective : Function.Bijective f :=
    (Fintype.bijective_iff_injective_and_card f).mpr ⟨injective, by simpa using count⟩
  have alike (i : Fin g.blockCount) := (blocks_alike_iff hg hh i.isLt (f i).isLt).mp
    (fitting.alike _ (hf i))
  refine ⟨.ofBijective f bijective, fun i => (alike i).1, fun i => (alike i).2.1,
    fun i => (alike i).2.2, fun i k => ?_⟩
  rw [← joined_iff hg, ← joined_iff hh]
  exact iff_of_eq (congrArg (· = true) (fitting.joined _ (hf i) _ (hf k)).symm)

theorem Pairing.exists_fitting (p : Pairing g h) {order : List Nat}
    (perm : order.Perm (List.range g.blockCount)) :
    ∃ pairs : List (Nat × Nat), pairs.map Prod.fst = order ∧
      (pairs.map Prod.snd).Subperm (List.range h.blockCount) ∧ Fitting g h pairs := by
  obtain ⟨σ, along, inside⟩ := exists_perm_extending p.index
  have within {i : Nat} (hi : i ∈ order) : i < g.blockCount :=
    List.mem_range.mp (perm.mem_iff.mp hi)
  have paired : ∀ q ∈ order.map fun i => (i, σ i),
      ∃ i : Fin g.blockCount, q = (i.val, (p.index i).val) :=
    List.forall_mem_map.mpr fun i hi => ⟨⟨i, within hi⟩, congrArg (i, ·) (along ⟨i, within hi⟩)⟩
  refine ⟨order.map fun i => (i, σ i), ?_, ?_, fun q hq => ?_, fun q hq r hr => ?_⟩
  · rw [List.map_map]
    exact List.map_id order
  · rw [List.map_map]
    refine List.subperm_of_subset ((perm.nodup_iff.mpr List.nodup_range).map σ.injective) ?_
    exact List.forall_mem_map.mpr fun i hi => List.mem_range.mpr ((inside i).mpr (within hi))
  · obtain ⟨i, rfl⟩ := paired q hq
    exact (blocks_alike_iff hg hh i.isLt (p.index i).isLt).mpr
      ⟨p.content i, p.outDegree i, p.inDegree i⟩
  · obtain ⟨i, rfl⟩ := paired q hq
    obtain ⟨j, rfl⟩ := paired r hr
    rw [Bool.eq_iff_iff, joined_iff hg, joined_iff hh]
    exact (p.joined i j).symm

/-- Two graphs are equal up to the numbering of their blocks if and only if they have as many blocks
and edges and their blocks can be paired. -/
theorem alike_iff_pairing : g.alike h = true ↔
    g.blockCount = h.blockCount ∧ g.edgeCount = h.edgeCount ∧ Nonempty (Pairing g h) := by
  have order := searchOrder_perm g g.blockCount [] _ List.length_range
  have start : Fitting g h [] :=
    ⟨fun _ hp => absurd hp List.not_mem_nil, fun _ hp => absurd hp List.not_mem_nil⟩
  simp only [alike, Bool.and_eq_true, beq_iff_eq, extend_iff start, List.append_nil, and_assoc]
  refine and_congr_right fun count => and_congr_right fun _ => ⟨?_, ?_⟩
  · rintro ⟨pairs, keys, values, fitting⟩
    exact fitting.exists_pairing hg hh (keys ▸ order) values count
  · rintro ⟨p⟩
    exact p.exists_fitting hg hh order

end Stores
end Graph
end FlowLoops
