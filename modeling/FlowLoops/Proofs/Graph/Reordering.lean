import FlowLoops.Proofs.Graph.Renumbering

/-! Graphs with the same blocks, created in another order, and the edges between them, added in any
order. They differ by a renumbering. -/

namespace FlowLoops
namespace Graph
variable {g h : Graph} {order : List Nat}

/-- One graph has the blocks of another, created in the given order of their indices, and the edges
between them in any order; the entry may be any. -/
structure Reorders (g h : Graph) (order : List Nat) : Prop where
  perm : order.Perm (List.range g.blockCount)
  contents : h.contents.map some = order.map fun i => g.contents[i]?
  edges : h.edges.toList.Perm (g.edges.toList.map (Edge.map order.idxOf))

namespace Reorders
variable (r : Reorders g h order)
include r

theorem nodup : order.Nodup := r.perm.nodup_iff.mpr List.nodup_range

theorem mem_iff {i : Nat} : i ∈ order ↔ i < g.blockCount := by
  rw [r.perm.mem_iff, List.mem_range]

theorem length_eq : order.length = h.blockCount := by
  have lengths := congrArg List.length r.contents
  rw [List.length_map, List.length_map, length_contents] at lengths
  exact lengths.symm

theorem content {i : Nat} (hi : i < g.blockCount) :
    h.contents[order.idxOf i]? = g.contents[i]? := by
  have place := congrArg (fun l => l[order.idxOf i]?) r.contents
  have listed : order[order.idxOf i]? = some i := List.getElem?_idxOf (r.mem_iff.mpr hi)
  simp only [List.getElem?_map, listed, Option.map_some, Option.map_eq_some_iff] at place
  obtain ⟨s, held, given⟩ := place
  rw [held, given]

end Reorders

def Reorders.index (r : Reorders g h order) : Fin g.blockCount ≃ Fin h.blockCount where
  toFun i := ⟨order.idxOf i.val, r.length_eq ▸ List.idxOf_lt_length_iff.mpr (r.mem_iff.mpr i.isLt)⟩
  invFun j := ⟨order.get ⟨j, r.length_eq.symm ▸ j.isLt⟩, r.mem_iff.mp (List.get_mem ..)⟩
  left_inv _ := Fin.ext (List.getElem_idxOf _)
  right_inv _ := Fin.ext (r.nodup.idxOf_getElem _ _)

theorem Reorders.exists_renumbering (r : Reorders g h order) (hg : g.Reachable) :
    Nonempty (Renumbering g h) := by
  obtain ⟨σ, along, -⟩ := exists_perm_extending r.index
  have edges : EdgesAlong g h σ := by
    refine r.edges.trans (List.Perm.of_eq (List.map_congr_left fun e he => ?_))
    have source := along ⟨e.source, hg.consistent.source_lt e he⟩
    have target := along ⟨e.target, hg.consistent.target_lt e he⟩
    exact (congrArg₂ Edge.mk source target).symm
  refine ⟨r.index, fun i => r.content i.isLt, fun i j => ?_⟩
  rw [← along, ← along]
  exact edges.multiplicity i j

theorem Reorders.alike (r : Reorders g h order) (hg : g.Reachable) (hh : h.Reachable) :
    g.alike h = true := by
  obtain ⟨renumbering⟩ := r.exists_renumbering hg
  exact renumbering.alike hg hh

theorem alike_equivalence :
    Equivalence (fun g h : {g : Graph // g.Reachable} => g.1.alike h.1 = true) where
  refl g := (alike_iff_pairing g.2 g.2).mpr ⟨rfl, rfl, ⟨.refl g.1⟩⟩
  symm {g h} same := by
    obtain ⟨blocks, edges, ⟨p⟩⟩ := (alike_iff_pairing g.2 h.2).mp same
    exact (alike_iff_pairing h.2 g.2).mpr ⟨blocks.symm, edges.symm, ⟨p.symm⟩⟩
  trans {g h k} same same' := by
    obtain ⟨blocks, edges, ⟨p⟩⟩ := (alike_iff_pairing g.2 h.2).mp same
    obtain ⟨blocks', edges', ⟨p'⟩⟩ := (alike_iff_pairing h.2 k.2).mp same'
    exact (alike_iff_pairing g.2 k.2).mpr
      ⟨blocks.trans blocks', edges.trans edges', ⟨p.trans p'⟩⟩

theorem alike_copy (hg : g.Reachable) (tag : Nat) : g.alike (g.copy tag) = true := by
  have p : Pairing g (g.copy tag) := { Pairing.refl g with }
  exact (alike_iff_pairing hg (.copy tag hg)).mpr ⟨rfl, rfl, ⟨p⟩⟩

end Graph
end FlowLoops
