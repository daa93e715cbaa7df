import FlowLoops.Proofs.Loop.Soundness
import FlowLoops.Proofs.Search.Restriction

/-! Loops are local. Where no edge enters a set of blocks, the loops that meet the set lie in it,
and they are the loops of the subgraph of the set, whatever else the graph holds and in whatever
order blocks and edges of the two parts were added. -/

namespace FlowLoops
variable {g h : Graph} {A : Nat → Prop} [DecidablePred A]

def Edge.renumber (A : Nat → Prop) [DecidablePred A] (e : Edge) : Edge :=
  ⟨Nat.count A e.source, Nat.count A e.target⟩

namespace Graph

/-- A graph is the subgraph of some blocks of another: these blocks, created in the same order, and
the edges between them, added in the same order. -/
structure Induces (g : Graph) (A : Nat → Prop) [DecidablePred A] (h : Graph) : Prop where
  blockCount : h.blockCount = Nat.count A g.blockCount
  edges : h.edges.toList =
    (g.edges.toList.filter fun e => A e.source ∧ A e.target).map (Edge.renumber A)

omit [DecidablePred A] in
theorem closed_of_edges (hg : g.Reachable)
    (closed : ∀ e ∈ g.edges.toList, A e.target → A e.source) {u v : BlockId}
    (step : g.Adjacent u v) (kept : A v.index) : A u.index :=
  closed _ (hg.adjacent_iff.mp step).2.2 kept

omit [DecidablePred A] in
theorem Reaches.within (hg : g.Reachable)
    (closed : ∀ e ∈ g.edges.toList, A e.target → A e.source) {u v : BlockId}
    (reaches : g.Reaches u v) (kept : A v.index) : A u.index := by
  induction reaches using Relation.ReflTransGen.head_induction_on with
  | refl => exact kept
  | head step _ ih => exact closed_of_edges hg closed step ih

theorem filter_source_renumber {edges : List Edge} {i : Nat} (kept : A i) :
    ((edges.filter fun e => A e.source ∧ A e.target).map (Edge.renumber A)).filter
        (·.source = Nat.count A i) =
      ((edges.filter (·.source = i)).filter (A ·.target)).map (Edge.renumber A) := by
  rw [List.filter_map, List.filter_filter, List.filter_filter]
  refine congrArg (List.map _) (List.filter_congr fun e _ => ?_)
  rw [Bool.eq_iff_iff, Bool.and_eq_true, Bool.and_eq_true]
  simp only [Function.comp_apply, Edge.renumber, decide_eq_true_eq]
  constructor
  · rintro ⟨same, source, target⟩
    exact ⟨target, Nat.count_injective source kept (of_decide_eq_true same)⟩
  · rintro ⟨target, rfl⟩
    exact ⟨decide_eq_true rfl, kept, target⟩

theorem Induces.restricts (induced : g.Induces A h) (hg : g.Reachable) (hh : h.Reachable)
    (closed : ∀ e ∈ g.edges.toList, A e.target → A e.source) : g.Restricts h A := by
  refine ⟨induced.blockCount, fun u v => closed_of_edges hg closed, fun u hu kept => ?_⟩
  have inside : u.index < g.blockCount := hu.2
  have hu' : h.Owns (h.image A u) :=
    owns_handle.mpr (induced.blockCount ▸ Nat.count_strict_mono kept inside)
  have ends : h.edges.toList.filter (·.source = (h.image A u).index) =
      ((g.edges.toList.filter (·.source = u.index)).filter (A ·.target)).map (Edge.renumber A) := by
    rw [induced.edges]
    exact filter_source_renumber kept
  rw [hh.targets_eq hu', ends, hg.targets_eq hu, Graph.kept]
  simp only [List.map_map, List.filter_map]
  rfl

theorem exists_induces (hg : g.Reachable) (A : Nat → Prop) [DecidablePred A] :
    ∃ h : Graph, h.Reachable ∧ g.Induces A h := by
  have within : ∀ e ∈ (g.edges.toList.filter fun e => A e.source ∧ A e.target).map
      (Edge.renumber A), e.source < (List.replicate (Nat.count A g.blockCount) "").length ∧
        e.target < (List.replicate (Nat.count A g.blockCount) "").length := by
    intro f hf
    obtain ⟨e, he, rfl⟩ := List.mem_map.mp hf
    obtain ⟨he, kept⟩ := List.mem_filter.mp he
    obtain ⟨source, target⟩ := of_decide_eq_true kept
    rw [List.length_replicate]
    exact ⟨Nat.count_strict_mono source (hg.consistent.source_lt e he),
      Nat.count_strict_mono target (hg.consistent.target_lt e he)⟩
  refine ⟨_, @reachable_ofLists g.tag _ _ within, ?_, edges_ofLists ..⟩
  rw [blockCount_ofLists, List.length_replicate]

end Graph

theorem loops_of_closed_set (hg : g.Reachable)
    (closed : ∀ e ∈ g.edges.toList, A e.target → A e.source) :
    ∃ loops, g.loops = .ok loops ∧ (∀ l ∈ loops, l.Meets A → ∀ b ∈ l.blocks, A b.index) ∧
      (∃ h : Graph, h.Reachable ∧ g.Induces A h) ∧
      ∀ h : Graph, h.Reachable → g.Induces A h →
        h.loops = .ok ((loops.filter (Loop.Meets A ·)).map (Loop.map (h.image A))) := by
  obtain ⟨way, found, hf, detected⟩ := exists_forest hg
  refine ⟨_, detected, fun l hl meets b hb => ?_, g.exists_induces hg A, fun h hh induced => ?_⟩
  · obtain ⟨e, he, rfl⟩ := List.mem_map.mp hl
    obtain ⟨rest, round⟩ := hf.isRound he
    obtain ⟨c, hc, kept⟩ := meets
    exact (round.reaches b hb c hc).within hg closed kept
  · exact (induced.restricts hg hh closed).loops hg hh detected

namespace Graph

def woven : Graph :=
  ofLists 0 ["a", "b", "c", "d", "e"]
    [⟨0, 2⟩, ⟨1, 3⟩, ⟨1, 0⟩, ⟨2, 0⟩, ⟨3, 3⟩, ⟨3, 2⟩, ⟨3, 1⟩, ⟨2, 4⟩]

def ring : Graph := ofLists 1 ["b", "d"] [⟨0, 1⟩, ⟨1, 1⟩, ⟨1, 0⟩]

theorem reachable_woven : woven.Reachable := reachable_ofLists (by decide)

theorem reachable_ring : ring.Reachable := reachable_ofLists (by decide)

theorem loops_woven : woven.loops =
    .ok [⟨[⟨0, 0⟩, ⟨0, 2⟩, ⟨0, 0⟩]⟩, ⟨[⟨0, 3⟩, ⟨0, 3⟩]⟩, ⟨[⟨0, 1⟩, ⟨0, 3⟩, ⟨0, 1⟩]⟩] := by
  cbv

theorem induces_ring : woven.Induces (· % 2 = 1) ring := by
  refine ⟨by decide, ?_⟩
  rw [woven, ring, edges_ofLists, edges_ofLists]
  decide

end Graph

theorem loops_ring : Graph.woven.Reachable ∧
    (∀ e ∈ Graph.woven.edges.toList, e.target % 2 = 1 → e.source % 2 = 1) ∧
    Graph.ring.Reachable ∧ Graph.woven.Induces (· % 2 = 1) Graph.ring ∧
    Graph.ring.loops = .ok [⟨[⟨1, 1⟩, ⟨1, 1⟩]⟩, ⟨[⟨1, 0⟩, ⟨1, 1⟩, ⟨1, 0⟩]⟩] := by
  have closed : ∀ e ∈ Graph.woven.edges.toList, e.target % 2 = 1 → e.source % 2 = 1 := by
    rw [Graph.woven, Graph.edges_ofLists]
    decide
  obtain ⟨loops, detected, -, -, part⟩ :=
    loops_of_closed_set (A := (· % 2 = 1)) Graph.reachable_woven closed
  obtain rfl := Except.ok.inj (detected.symm.trans Graph.loops_woven)
  exact ⟨Graph.reachable_woven, closed, Graph.reachable_ring, Graph.induces_ring,
    part Graph.ring Graph.reachable_ring Graph.induces_ring⟩

end FlowLoops
