import FlowLoops.Proofs.Graph.Walk
import Mathlib.Data.Nat.Find

/-! Edges to a block that no path around can avoid, seen from the first block that reaches their
source. Neither the tag of a graph nor the order of its edges has a part in this. -/

namespace FlowLoops
open Relation

theorem Walk.map {α β : Type} {R : α → α → Prop} {S : β → β → Prop} {a b : α} {w : List α}
    (h : Walk R a b w) (f : α → β) (step : ∀ x y, R x y → S (f x) (f y)) :
    Walk S (f a) (f b) (w.map f) := by
  refine ⟨List.isChain_map_of_isChain f step h.chain, ?_, ?_⟩
  · rw [List.head?_map, h.head, Option.map_some]
  · rw [List.getLast?_map, h.last, Option.map_some]

namespace Graph
variable {g h : Graph} {m n u v : BlockId}

structure FirstReaching (g : Graph) (m u : BlockId) : Prop where
  owned : g.Owns m
  reaches : g.Reaches m u
  least : ∀ a, g.Owns a → g.Reaches a u → m.index ≤ a.index

theorem FirstReaching.unique (hm : g.FirstReaching m u) (hn : g.FirstReaching n u) : m = n := by
  have le := hm.least n hn.owned hn.reaches
  have ge := hn.least m hm.owned hm.reaches
  rw [hm.owned.eq_handle, hn.owned.eq_handle, Nat.le_antisymm le ge]

theorem exists_firstReaching (hu : g.Owns u) : ∃ m, g.FirstReaching m u := by
  classical
  have some_index : ∃ i, g.Owns (g.handle i) ∧ g.Reaches (g.handle i) u :=
    ⟨u.index, hu.eq_handle ▸ ⟨hu, .refl⟩⟩
  obtain ⟨owned, reaches⟩ := Nat.find_spec some_index
  refine ⟨_, owned, reaches, fun a ha path => ?_⟩
  exact Nat.find_min' some_index (ha.eq_handle ▸ ⟨ha, path⟩)

/-- An edge into a block that lies on all paths to its source from the first block reaching that. -/
def NaturalEdge (g : Graph) (u v : BlockId) : Prop :=
  g.Adjacent u v ∧ ∃ m, g.FirstReaching m u ∧ ∀ p, Walk g.Adjacent m u p → v ∈ p

theorem naturalEdge_self (loop : g.Adjacent u u) : g.NaturalEdge u u := by
  obtain ⟨m, first⟩ := exists_firstReaching loop.owns_left
  exact ⟨loop, m, first, fun _ walk => List.mem_of_getLast? walk.last⟩

theorem FirstReaching.naturalEdge (first : g.FirstReaching m u) (back : g.Adjacent u m) :
    g.NaturalEdge u m :=
  ⟨back, m, first, fun _ walk => List.mem_of_head? walk.head⟩

def Reducible (g : Graph) : Prop := Acyclic fun u v => g.Adjacent u v ∧ ¬ g.NaturalEdge u v

theorem Reaches.owns (hg : g.Reachable) (reaches : g.Reaches u v) (owned : g.Owns u) :
    g.Owns v := by
  induction reaches with
  | refl => exact owned
  | tail _ step _ => exact step.owns_right hg

structure SameEdges (g h : Graph) : Prop where
  blockCount : g.blockCount = h.blockCount
  edges : ∀ e, e ∈ g.edges.toList ↔ e ∈ h.edges.toList

def counterpart (h : Graph) (b : BlockId) : BlockId := h.handle b.index

theorem Owns.counterpart_counterpart (hu : g.Owns u) :
    g.counterpart (h.counterpart u) = u := hu.eq_handle.symm

namespace SameEdges

theorem symm (same : SameEdges g h) : SameEdges h g :=
  ⟨same.blockCount.symm, fun e => (same.edges e).symm⟩

theorem owns (same : SameEdges g h) (hu : g.Owns u) : h.Owns (h.counterpart u) :=
  owns_handle.mpr (same.blockCount ▸ hu.2)

section Stores
variable (hg : g.Reachable) (hh : h.Reachable)
include hg hh

theorem adjacent (same : SameEdges g h) (step : g.Adjacent u v) :
    h.Adjacent (h.counterpart u) (h.counterpart v) := by
  obtain ⟨-, -, he⟩ := hg.adjacent_iff.mp step
  exact hh.adjacent_iff.mpr ⟨rfl, rfl, (same.edges _).mp he⟩

theorem reaches (same : SameEdges g h) (path : g.Reaches u v) :
    h.Reaches (h.counterpart u) (h.counterpart v) :=
  ReflTransGen.lift h.counterpart (fun _ _ => same.adjacent hg hh) _ _ path

theorem firstReaching (same : SameEdges g h) (first : g.FirstReaching m u) :
    h.FirstReaching (h.counterpart m) (h.counterpart u) := by
  have hu : g.Owns u := first.reaches.owns hg first.owned
  refine ⟨same.owns first.owned, same.reaches hg hh first.reaches, fun a ha path => ?_⟩
  have back := same.symm.reaches hh hg path
  rw [hu.counterpart_counterpart] at back
  exact first.least (g.counterpart a) (same.symm.owns ha) back

theorem naturalEdge (same : SameEdges g h) (natural : g.NaturalEdge u v) :
    h.NaturalEdge (h.counterpart u) (h.counterpart v) := by
  obtain ⟨step, m, first, all⟩ := natural
  refine ⟨same.adjacent hg hh step, _, same.firstReaching hg hh first, fun p walk => ?_⟩
  -- a path of the other graph is one of this graph by the same indices
  have back := walk.map g.counterpart fun x y => same.symm.adjacent hh hg
  rw [first.owned.counterpart_counterpart, step.owns_left.counterpart_counterpart] at back
  obtain ⟨c, hc, rfl⟩ := List.mem_map.mp (all _ back)
  have owned : h.Owns c := Reaches.owns hh (walk.through hc).1 (same.owns first.owned)
  rwa [owned.counterpart_counterpart]

theorem reducible (same : SameEdges g h) (reducible : g.Reducible) : h.Reducible := by
  intro w closed
  refine reducible (w.map g.counterpart) ⟨?_, ?_, ?_⟩
  · refine List.isChain_map_of_isChain _ ?_ closed.chain
    rintro x y ⟨step, unnatural⟩
    refine ⟨same.symm.adjacent hh hg step, fun natural => unnatural ?_⟩
    have back := same.naturalEdge hg hh natural
    rwa [step.owns_left.counterpart_counterpart,
      (step.owns_right hh).counterpart_counterpart] at back
  · rw [List.head?_map, List.getLast?_map, closed.closed]
  · rw [List.length_map]
    exact closed.two_le

end Stores
end SameEdges
end Graph
end FlowLoops
