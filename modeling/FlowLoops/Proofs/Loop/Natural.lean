import FlowLoops.Proofs.Loop.Forest

/-! Natural edges are back edges whatever the order of the search. Where every closed walk takes
one, there are no other back edges, and the order of the edges does not change which are found. -/

namespace FlowLoops
open FlowLoops.Graph
variable {g : Graph} {way : BlockId → List BlockId} {found : List BackEdge} {u v : BlockId}

theorem Forest.mem_way_of_natural (hf : Forest g way found) (natural : g.NaturalEdge u v) :
    v ∈ way u := by
  obtain ⟨step, m, first, all⟩ := natural
  obtain ⟨n, first', walk⟩ := (hf.isWay u step.owns_left).walk
  obtain rfl := first.unique first'
  exact all _ walk

theorem Forest.not_natural_of_way (hf : Forest g way found) (hu : g.Owns u)
    {front rest : List BlockId} {a b : BlockId} (split : way u = front ++ a :: b :: rest) :
    ¬ g.NaturalEdge a b := by
  intro natural
  have isWay := hf.isWay u hu
  -- `b` would lie on the way to `a` already, and again right after it
  have before : b ∈ front ++ [a] := by
    rw [← isWay.initial front a (b :: rest) split]
    exact hf.mem_way_of_natural natural
  have nodup := isWay.nodup
  rw [split, List.append_cons front a (b :: rest), List.nodup_append] at nodup
  exact nodup.2.2 b before b List.mem_cons_self rfl

theorem Forest.natural_of_reducible (hf : Forest g way found) (reducible : g.Reducible)
    (step : g.Adjacent u v) (mem : v ∈ way u) : g.NaturalEdge u v := by
  by_contra unnatural
  have hu : g.Owns u := step.owns_left
  have isWay := hf.isWay u hu
  obtain ⟨front, rest, split, last, -⟩ := isWay.body_loopAlong mem
  obtain ⟨m, -, walk⟩ := isWay.walk
  have along : (v :: rest).IsChain fun a b => g.Adjacent a b ∧ ¬ g.NaturalEdge a b := by
    rw [List.isChain_iff_forall_rel_of_append_cons_cons]
    intro a b before after part
    rw [part, ← List.append_assoc] at split
    constructor
    · exact List.isChain_iff_forall_rel_of_append_cons_cons.mp walk.chain split
    · exact hf.not_natural_of_way hu split
  -- the rest of the way and the edge itself close a walk without natural edges
  have closed := isChain_concat along last ⟨step, unnatural⟩
  exact reducible (v :: rest ++ [v]) ⟨closed, List.getLast?_concat.symm, by simp⟩

theorem Forest.reported_iff_natural (hf : Forest g way found) (reducible : g.Reducible) :
    Reported (found.map (loopAlong way)) u v ↔ g.NaturalEdge u v := by
  rw [hf.reported_iff]
  constructor
  · rintro ⟨step, mem⟩
    exact hf.natural_of_reducible reducible step mem
  · intro natural
    exact ⟨natural.1, hf.mem_way_of_natural natural⟩

theorem Graph.SameEdges.naturalEdge_iff {h : Graph} (same : SameEdges g h) (hg : g.Reachable)
    (hh : h.Reachable) {i j : Nat} :
    h.NaturalEdge (h.handle i) (h.handle j) ↔ g.NaturalEdge (g.handle i) (g.handle j) :=
  ⟨same.symm.naturalEdge hh hg, same.naturalEdge hg hh⟩

theorem natural_edges_reported (hg : g.Reachable) :
    ∃ loops, g.loops = .ok loops ∧ (∀ u v, g.NaturalEdge u v → Reported loops u v) ∧
      (g.Reducible → (∀ u v, Reported loops u v → g.NaturalEdge u v) ∧
        ∀ h : Graph, h.Reachable → SameEdges g h → ∃ others, h.loops = .ok others ∧
          ∀ i j, Reported others (h.handle i) (h.handle j) ↔
            Reported loops (g.handle i) (g.handle j)) := by
  obtain ⟨way, found, hf, detected⟩ := exists_forest hg
  refine ⟨_, detected, fun u v natural => ?_, fun reducible => ⟨fun u v reported => ?_, ?_⟩⟩
  · exact hf.reported_iff.mpr ⟨natural.1, hf.mem_way_of_natural natural⟩
  · exact (hf.reported_iff_natural reducible).mp reported
  · intro h hh same
    obtain ⟨way', found', hf', detected'⟩ := exists_forest hh
    have reducible' : h.Reducible := same.reducible hg hh reducible
    refine ⟨_, detected', fun i j => ?_⟩
    rw [hf'.reported_iff_natural reducible', hf.reported_iff_natural reducible]
    exact same.naturalEdge_iff hg hh

namespace Graph

def round : Graph := ofLists 0 ["a", "b", "c"] [⟨0, 1⟩, ⟨1, 1⟩, ⟨1, 2⟩, ⟨2, 0⟩]

def reversed : Graph := ofLists 1 ["a", "b", "c"] [⟨2, 0⟩, ⟨1, 2⟩, ⟨1, 1⟩, ⟨0, 1⟩]

theorem reachable_round : round.Reachable := reachable_ofLists (by decide)

theorem reachable_reversed : reversed.Reachable := reachable_ofLists (by decide)

theorem edges_round : round.edges.toList = [⟨0, 1⟩, ⟨1, 1⟩, ⟨1, 2⟩, ⟨2, 0⟩] := by cbv

theorem sameEdges_round : SameEdges round reversed := by
  refine ⟨rfl, fun e => ?_⟩
  have reversed_edges : reversed.edges.toList = round.edges.toList.reverse := by cbv
  rw [reversed_edges, List.mem_reverse]

theorem adjacent_round {i j : Nat} :
    round.Adjacent (round.handle i) (round.handle j) ↔ ⟨i, j⟩ ∈ round.edges.toList := by
  rw [reachable_round.adjacent_iff]
  exact ⟨fun h => h.2.2, fun h => ⟨rfl, rfl, h⟩⟩

theorem naturalEdge_round : round.NaturalEdge (round.handle 2) (round.handle 0) := by
  have along : ∀ e ∈ round.edges.toList,
      round.Adjacent (round.handle e.source) (round.handle e.target) :=
    fun e he => adjacent_round.mpr he
  rw [edges_round] at along
  have first : round.FirstReaching (round.handle 0) (round.handle 2) := by
    refine ⟨by decide, ?_, fun a _ _ => Nat.zero_le _⟩
    exact (Relation.ReflTransGen.single (along ⟨0, 1⟩ (by simp))).tail (along ⟨1, 2⟩ (by simp))
  exact first.naturalEdge (along ⟨2, 0⟩ (by simp))

theorem reducible_round : round.Reducible := by
  -- all edges but the natural ones lead to blocks created later
  refine acyclic_of_lt (·.index) fun u v ⟨step, unnatural⟩ => ?_
  have hu := step.owns_left.eq_handle
  have hv := (step.owns_right reachable_round).eq_handle
  rw [hu, hv] at step unnatural
  have listed := adjacent_round.mp step
  simp only [edges_round, List.mem_cons, Edge.mk.injEq, List.not_mem_nil, or_false] at listed
  rcases listed with ⟨i, j⟩ | ⟨i, j⟩ | ⟨i, j⟩ | ⟨i, j⟩
  · omega
  · rw [i, j] at step unnatural
    exact absurd (naturalEdge_self step) unnatural
  · omega
  · rw [i, j] at unnatural
    exact absurd naturalEdge_round unnatural

end Graph

theorem reported_round : Graph.round.Reachable ∧ Graph.round.Reducible ∧
    ∃ loops others, Graph.round.loops = .ok loops ∧ Graph.reversed.loops = .ok others ∧
      Reported loops ⟨0, 2⟩ ⟨0, 0⟩ ∧ Reported others ⟨1, 2⟩ ⟨1, 0⟩ := by
  obtain ⟨loops, detected, reported, same⟩ := natural_edges_reported Graph.reachable_round
  obtain ⟨-, order⟩ := same Graph.reducible_round
  obtain ⟨others, detected', agree⟩ :=
    order Graph.reversed Graph.reachable_reversed Graph.sameEdges_round
  have outer := reported _ _ Graph.naturalEdge_round
  exact ⟨Graph.reachable_round, Graph.reducible_round, loops, others, detected, detected', outer,
    (agree 2 0).mpr outer⟩

end FlowLoops
