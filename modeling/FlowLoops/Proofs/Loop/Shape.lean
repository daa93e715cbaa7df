import FlowLoops.Proofs.Loop.Forest
import FlowLoops.Proofs.Search.Restriction

/-! The loops of a graph depend on its shape alone: on how many blocks it has, and on the successors
of each. They are the same, index by index, in every graph of that shape. -/

namespace FlowLoops
namespace Graph
variable {g h : Graph}

structure SameShape (g h : Graph) : Prop where
  blockCount : h.blockCount = g.blockCount
  targets : ∀ u, g.Owns u → h.targets (h.counterpart u) = (g.targets u).map h.counterpart

theorem image_true (h : Graph) : h.image (fun _ => True) = h.counterpart := by
  funext b
  rw [image, Nat.count_true, counterpart]

theorem SameShape.restricts (same : SameShape g h) : g.Restricts h fun _ => True := by
  refine ⟨?_, fun _ _ _ _ => trivial, fun u hu _ => ?_⟩
  · rw [same.blockCount, Nat.count_true]
  · rw [kept_eq_map fun _ _ => trivial, image_true]
    exact same.targets u hu

def targetsFrom (edges : List Edge) (source : Nat) : List Nat :=
  (edges.filter (·.source = source)).map (·.target)

theorem sameShape_of_targetsFrom (hg : g.Reachable) (hh : h.Reachable)
    (blockCount : h.blockCount = g.blockCount)
    (targets : ∀ i < g.blockCount, targetsFrom h.edges.toList i = targetsFrom g.edges.toList i) :
    SameShape g h := by
  refine ⟨blockCount, fun u hu => ?_⟩
  have hu' : h.Owns (h.counterpart u) := owns_handle.mpr (blockCount ▸ hu.2)
  have same := targets u.index hu.2
  rw [targetsFrom, targetsFrom] at same
  rw [hh.targets_eq hu', hg.targets_eq hu, counterpart, handle, same]
  simp only [List.map_map]
  rfl

theorem sameShape_of_edges (hg : g.Reachable) (hh : h.Reachable)
    (blockCount : h.blockCount = g.blockCount) (edges : h.edges = g.edges) : SameShape g h := by
  refine sameShape_of_targetsFrom hg hh blockCount fun i _ => ?_
  rw [edges]

theorem blocks_ne_nil (hg : g.Reachable) {loops : List Loop} (detected : g.loops = .ok loops) :
    ∀ l ∈ loops, l.blocks ≠ [] := by
  obtain ⟨way, found, -, detected'⟩ := exists_forest hg
  obtain rfl := Except.ok.inj (detected.symm.trans detected')
  intro l hl
  obtain ⟨e, -, rfl⟩ := List.mem_map.mp hl
  exact List.concat_ne_nil _ _

theorem SameShape.loops (same : SameShape g h) (hg : g.Reachable) (hh : h.Reachable)
    {loops : List Loop} (detected : g.loops = .ok loops) :
    h.loops = .ok (loops.map (Loop.map h.counterpart)) := by
  have all : loops.filter (Loop.Meets (fun _ => True) ·) = loops := by
    refine List.filter_eq_self.mpr fun l hl => decide_eq_true ?_
    obtain ⟨b, hb⟩ := List.exists_mem_of_ne_nil _ (blocks_ne_nil hg detected l hl)
    exact ⟨b, hb, trivial⟩
  rw [same.restricts.loops hg hh detected, all, image_true]

end Graph
end FlowLoops
