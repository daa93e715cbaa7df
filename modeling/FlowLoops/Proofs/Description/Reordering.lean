import FlowLoops.Proofs.Description.Building
import FlowLoops.Proofs.Graph.Reordering
import FlowLoops.Proofs.Search.Restriction

/-! Descriptions with their blocks and edges listed in other orders. The same of them can be built,
and what is built of them are equal graphs. -/

namespace FlowLoops

theorem map_idxOf_self {l : List String} (nodup : l.Nodup) :
    l.map l.idxOf = List.range l.length := by
  apply List.ext_getElem
  · rw [List.length_map, List.length_range]
  · intro i hi _
    rw [List.getElem_map, List.getElem_range]
    exact nodup.idxOf_getElem i (by rwa [List.length_map] at hi)

namespace Description
variable {d d' : Description}

structure Reorders (d d' : Description) : Prop where
  blocks : d'.blocks.Perm d.blocks
  edges : d'.edges.Perm d.edges
  entry : d'.entry = d.entry

theorem WellLabelled.content {b : Block} (w : d.WellLabelled) (hb : b ∈ d.blocks) (tag : Nat) :
    (d.graph tag).contents[d.labels.idxOf b.label]? = some b.text := by
  obtain ⟨i, hi, rfl⟩ := List.getElem_of_mem hb
  have inside : i < d.labels.length := by rwa [labels, List.length_map]
  have listed : d.labels[i] = d.blocks[i].label := List.getElem_map _
  have place := w.nodup.idxOf_getElem i inside
  rw [listed] at place
  rw [place, contents_graph, List.getElem?_map, List.getElem?_eq_getElem hi, Option.map_some]

namespace Reorders

theorem labels_perm (r : Reorders d d') : d'.labels.Perm d.labels := r.blocks.map _

theorem wellLabelled (r : Reorders d d') (w : d.WellLabelled) : d'.WellLabelled := by
  refine ⟨r.labels_perm.nodup_iff.mpr w.nodup, fun e he => ?_, fun e he => ?_, fun l hl => ?_⟩
  · exact r.labels_perm.mem_iff.mpr (w.source_mem e (r.edges.mem_iff.mp he))
  · exact r.labels_perm.mem_iff.mpr (w.target_mem e (r.edges.mem_iff.mp he))
  · exact r.labels_perm.mem_iff.mpr (w.entry_mem l (r.entry ▸ hl))

def order (d d' : Description) : List Nat := d'.labels.map d.labels.idxOf

theorem idxOf_order (r : Reorders d d') (l : String) :
    (order d d').idxOf (d.labels.idxOf l) = d'.labels.idxOf l := by
  have inj : ∀ k ∈ d'.labels, d.labels.idxOf k = d.labels.idxOf l → k = l := fun k hk same =>
    (List.idxOf_inj (r.labels_perm.mem_iff.mp hk)).mp same
  exact idxOf_map_of_injOn inj

theorem graph (r : Reorders d d') (w : d.WellLabelled) (tag tag' : Nat) :
    (d.graph tag).Reorders (d'.graph tag') (order d d') := by
  refine ⟨?_, ?_, ?_⟩
  · rw [blockCount_graph, ← map_idxOf_self w.nodup]
    exact r.labels_perm.map _
  · have order : order d d' = d'.blocks.map fun b => d.labels.idxOf b.label := List.map_map
    rw [contents_graph, order, List.map_map, List.map_map]
    apply List.map_congr_left
    intro b hb
    exact (w.content (r.blocks.mem_iff.mp hb) tag).symm
  · have renamed : d.edges.map (Edge.within d'.labels) =
        (d.edges.map (Edge.within d.labels)).map (Edge.map (order d d').idxOf) := by
      rw [List.map_map]
      apply List.map_congr_left
      intro e _
      have source := r.idxOf_order e.source
      have target := r.idxOf_order e.target
      exact (congrArg₂ FlowLoops.Edge.mk source target).symm
    rw [edges_graph, edges_graph, ← renamed]
    exact r.edges.map _

theorem build (r : Reorders d d') {tag : Nat} {g : Graph} (built : d.build tag = .ok g)
    (tag' : Nat) : ∃ h, d'.build tag' = .ok h ∧ g.alike h = true := by
  obtain ⟨w, rfl⟩ := (build_eq_ok_iff d).mp built
  have built' := (r.wellLabelled w).build tag'
  exact ⟨_, built', (r.graph w tag tag').alike (reachable_build built) (reachable_build built')⟩

end Reorders

def tangled : Description :=
  ⟨some "a", [⟨"a", some "x"⟩, ⟨"b", some "x"⟩, ⟨"c", none⟩],
    [⟨"a", "b"⟩, ⟨"a", "b"⟩, ⟨"b", "b"⟩, ⟨"b", "c"⟩, ⟨"c", "a"⟩]⟩

def tangledAnew : Description :=
  ⟨some "a", [⟨"c", none⟩, ⟨"a", some "x"⟩, ⟨"b", some "x"⟩],
    [⟨"c", "a"⟩, ⟨"a", "b"⟩, ⟨"b", "c"⟩, ⟨"b", "b"⟩, ⟨"a", "b"⟩]⟩

theorem reorders_tangled : tangled.Reorders tangledAnew := ⟨by decide, by decide, rfl⟩

theorem wellLabelled_tangled : tangled.WellLabelled :=
  ⟨by decide, by decide, by decide, by decide⟩

end Description

namespace Graph
open Description

/-- Equality is an equivalence on the graphs that the store can reach. The order in which blocks
and edges were added does not matter to it, nor does the entry; so a copy equals its original, and
so do graphs built of descriptions that list the same blocks and edges. -/
theorem equality_forgets_order :
    Equivalence (fun g h : {g : Graph // g.Reachable} => g.1.alike h.1 = true) ∧
    (∀ (g h : Graph) (order : List Nat), g.Reachable → h.Reachable → g.Reorders h order →
      g.alike h = true) ∧
    (∀ (g : Graph) (tag : Nat), g.Reachable → g.alike (g.copy tag) = true) ∧
    ∀ (d d' : Description) (tag tag' : Nat) (g : Graph), d.Reorders d' →
      d.build tag = .ok g → ∃ h, d'.build tag' = .ok h ∧ g.alike h = true :=
  ⟨alike_equivalence, fun _ _ _ hg hh r => r.alike hg hh, fun _ tag hg => alike_copy hg tag,
    fun _ _ _ tag' _ r built => r.build built tag'⟩

theorem equality_of_tangled :
    tangled.Reorders tangledAnew ∧ tangled.build 0 = .ok (tangled.graph 0) ∧
      tangledAnew.build 1 = .ok (tangledAnew.graph 1) ∧
      (tangled.graph 0).Reorders (tangledAnew.graph 1) [2, 0, 1] ∧
      (tangled.graph 0).alike (tangledAnew.graph 1) = true ∧
      ∃ h, tangledAnew.build 2 = .ok h ∧ (tangled.graph 0).alike h = true := by
  have labelled := wellLabelled_tangled
  have built := labelled.build 0
  have built' := (reorders_tangled.wellLabelled labelled).build 1
  have reordered : (tangled.graph 0).Reorders (tangledAnew.graph 1) [2, 0, 1] :=
    reorders_tangled.graph labelled 0 1
  obtain ⟨-, ordered, -, described⟩ := equality_forgets_order
  exact ⟨reorders_tangled, built, built', reordered,
    ordered _ _ _ (reachable_build built) (reachable_build built') reordered,
    described _ _ 0 2 _ reorders_tangled built⟩

end Graph
end FlowLoops
