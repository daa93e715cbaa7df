import FlowLoops.Proofs.Graph.Matching

/-! Renumberings: bijections of blocks that keep contents and how many edges lead from each block to
each. Graphs that differ by one are equal. The converse fails: equality asks how many edges leave
and enter a block, and not how many of them lead to the same block. -/

namespace FlowLoops

def Edge.map (f : Nat → Nat) (e : Edge) : Edge := ⟨f e.source, f e.target⟩

theorem Edge.map_injective {f : Nat → Nat} (injective : f.Injective) :
    (Edge.map f).Injective := by
  rintro ⟨i, j⟩ ⟨k, l⟩ same
  injection same with source target
  exact congrArg₂ Edge.mk (injective source) (injective target)

namespace Graph
variable {g h : Graph} {σ : Equiv.Perm Nat}

def EdgesAlong (g h : Graph) (σ : Equiv.Perm Nat) : Prop :=
  h.edges.toList.Perm (g.edges.toList.map (Edge.map σ))

namespace EdgesAlong
variable (along : EdgesAlong g h σ)
include along

theorem edgeCount : h.edgeCount = g.edgeCount := by
  simpa [Graph.edgeCount] using along.length_eq

theorem multiplicity (i j : Nat) : h.multiplicity (σ i) (σ j) = g.multiplicity i j :=
  (along.count_eq _).trans
    (List.count_map_of_injective _ _ (Edge.map_injective σ.injective) (⟨i, j⟩ : Edge))

theorem outDegree (i : Nat) : h.outDegree (σ i) = g.outDegree i := by
  rw [Graph.outDegree, along.countP_eq, List.countP_map, Graph.outDegree]
  exact List.countP_congr fun e _ => by simp [Edge.map]

theorem inDegree (i : Nat) : h.inDegree (σ i) = g.inDegree i := by
  rw [Graph.inDegree, along.countP_eq, List.countP_map, Graph.inDegree]
  exact List.countP_congr fun e _ => by simp [Edge.map]

end EdgesAlong

/-- A bijection of the blocks of two graphs that keeps contents and how many parallel edges lead
from each block to each. -/
structure Renumbering (g h : Graph) where
  index : Fin g.blockCount ≃ Fin h.blockCount
  content : ∀ i, h.contents[(index i).val]? = g.contents[i.val]?
  multiplicity : ∀ i j, h.multiplicity (index i) (index j) = g.multiplicity i j

namespace Renumbering

def symm (r : Renumbering g h) : Renumbering h g where
  index := r.index.symm
  content i := by simpa using (r.content (r.index.symm i)).symm
  multiplicity i j := by simpa using (r.multiplicity (r.index.symm i) (r.index.symm j)).symm

theorem edgesAlong (r : Renumbering g h) (hg : g.Reachable) (hh : h.Reachable)
    (along : ∀ i : Fin g.blockCount, σ i = r.index i)
    (inside : ∀ k, σ k < h.blockCount ↔ k < g.blockCount) : EdgesAlong g h σ := by
  refine List.perm_iff_count.mpr fun x => ?_
  obtain ⟨e, rfl⟩ : ∃ e : Edge, x = e.map σ := ⟨x.map σ.symm, by simp [Edge.map]⟩
  rw [List.count_map_of_injective _ _ (Edge.map_injective σ.injective)]
  obtain ⟨i, j⟩ := e
  by_cases ends : i < g.blockCount ∧ j < g.blockCount
  · have same := r.multiplicity ⟨i, ends.1⟩ ⟨j, ends.2⟩
    rw [← along ⟨i, ends.1⟩, ← along ⟨j, ends.2⟩] at same
    exact same
  · rw [List.count_eq_zero.mpr, List.count_eq_zero.mpr]
    · exact fun he => ends ⟨hg.consistent.source_lt _ he, hg.consistent.target_lt _ he⟩
    · exact fun he => ends
        ⟨(inside i).mp (hh.consistent.source_lt _ he), (inside j).mp (hh.consistent.target_lt _ he)⟩

theorem alike (r : Renumbering g h) (hg : g.Reachable) (hh : h.Reachable) :
    g.alike h = true := by
  obtain ⟨σ, along, inside⟩ := exists_perm_extending r.index
  have edges := r.edgesAlong hg hh along inside
  refine (alike_iff_pairing hg hh).mpr
    ⟨Fin.equiv_iff_eq.mp ⟨r.index⟩, edges.edgeCount.symm, ⟨⟨r.index, r.content, ?_, ?_, ?_⟩⟩⟩
  · exact fun i => along i ▸ edges.outDegree i
  · exact fun i => along i ▸ edges.inDegree i
  · exact fun i j => iff_of_eq (congrArg (0 < ·) (r.multiplicity i j))

end Renumbering

theorem Pairing.exists_renumbering (p : Pairing g h) (hg : g.Reachable)
    (count : h.edgeCount = g.edgeCount) (simple : g.edges.toList.Nodup) :
    Nonempty (Renumbering g h) := by
  obtain ⟨σ, along, -⟩ := exists_perm_extending p.index
  -- no edge is missed, and there are no more of them on the other side
  have listed : g.edges.toList.map (Edge.map σ) ⊆ h.edges.toList := by
    refine List.forall_mem_map.mpr fun e he => List.count_pos_iff.mp ?_
    have joined := p.joined ⟨e.source, hg.consistent.source_lt e he⟩
      ⟨e.target, hg.consistent.target_lt e he⟩
    rw [← along, ← along] at joined
    exact joined.mpr (List.count_pos_iff.mpr he)
  have once := simple.map (Edge.map_injective σ.injective)
  have edges : EdgesAlong g h σ := by
    refine ((List.subperm_of_subset once listed).perm_of_length_le ?_).symm
    rw [List.length_map, Array.length_toList, Array.length_toList]
    exact Nat.le_of_eq count
  refine ⟨p.index, p.content, fun i j => ?_⟩
  rw [← along, ← along]
  exact edges.multiplicity i j

/-- Equality is a pairing of the blocks. Graphs that differ by a renumbering are equal, and equal
graphs differ by one if one of them has no parallel edges. -/
theorem alike_iff_renumbering (hg : g.Reachable) (hh : h.Reachable) :
    (g.alike h = true ↔
      g.blockCount = h.blockCount ∧ g.edgeCount = h.edgeCount ∧ Nonempty (Pairing g h)) ∧
    (Nonempty (Renumbering g h) → g.alike h = true) ∧
    (g.edges.toList.Nodup ∨ h.edges.toList.Nodup →
      (g.alike h = true ↔ Nonempty (Renumbering g h))) := by
  have enough : Nonempty (Renumbering g h) → g.alike h = true := fun ⟨r⟩ => r.alike hg hh
  refine ⟨alike_iff_pairing hg hh, enough, fun simple => ⟨fun equal => ?_, enough⟩⟩
  obtain ⟨-, edges, ⟨p⟩⟩ := (alike_iff_pairing hg hh).mp equal
  rcases simple with simple | simple
  · exact p.exists_renumbering hg edges.symm simple
  · obtain ⟨r⟩ := p.symm.exists_renumbering hh edges simple
    exact ⟨r.symm⟩

def hook : Graph := ofLists 0 ["a", "b", "a"] [⟨0, 1⟩, ⟨1, 2⟩, ⟨2, 2⟩]

def hookBackwards : Graph := ofLists 1 ["a", "b", "a"] [⟨0, 0⟩, ⟨2, 1⟩, ⟨1, 0⟩]

theorem renumbering_hook : hook.Reachable ∧ hookBackwards.Reachable ∧
    hook.edges.toList.Nodup ∧ Nonempty (Renumbering hook hookBackwards) := by
  have reachable : hook.Reachable := reachable_ofLists (by decide)
  have reachable' : hookBackwards.Reachable := reachable_ofLists (by decide)
  have simple : hook.edges.toList.Nodup := by
    rw [hook, edges_ofLists]
    decide
  have equal : hook.alike hookBackwards = true := by decide +kernel
  have iff := (alike_iff_renumbering reachable reachable').2.2 (.inl simple)
  exact ⟨reachable, reachable', simple, iff.mp equal⟩

def loopsTwice : Graph := ofLists 0 ["a", "b"] [⟨0, 0⟩, ⟨0, 0⟩, ⟨0, 1⟩, ⟨1, 0⟩, ⟨1, 1⟩, ⟨1, 1⟩]

def acrossTwice : Graph := ofLists 1 ["a", "b"] [⟨0, 0⟩, ⟨0, 1⟩, ⟨0, 1⟩, ⟨1, 0⟩, ⟨1, 0⟩, ⟨1, 1⟩]

theorem alike_without_renumbering :
    loopsTwice.Reachable ∧ acrossTwice.Reachable ∧ loopsTwice.alike acrossTwice = true ∧
      ¬ Nonempty (Renumbering loopsTwice acrossTwice) := by
  refine ⟨reachable_ofLists (by decide), reachable_ofLists (by decide), by decide +kernel, ?_⟩
  rintro ⟨r⟩
  have inside : 0 < loopsTwice.blockCount := by
    rw [loopsTwice, blockCount_ofLists]
    decide
  have contents : loopsTwice.contents = ["a", "b"] := contents_ofLists ..
  have contents' : acrossTwice.contents = ["a", "b"] := contents_ofLists ..
  have edges : loopsTwice.multiplicity 0 0 = 2 := by
    rw [multiplicity, loopsTwice, edges_ofLists]
    decide
  have edges' : acrossTwice.multiplicity 0 0 = 1 := by
    rw [multiplicity, acrossTwice, edges_ofLists]
    decide
  -- the contents leave no choice for the first block
  have first : (r.index ⟨0, inside⟩).val = 0 := by
    have content := r.content ⟨0, inside⟩
    rw [contents, contents'] at content
    generalize (r.index ⟨0, inside⟩).val = k at content
    rcases k with _ | _ | k
    · rfl
    · simp at content
    · simp at content
  have same := r.multiplicity ⟨0, inside⟩ ⟨0, inside⟩
  rw [first, edges, edges'] at same
  cases same

end Graph
end FlowLoops
