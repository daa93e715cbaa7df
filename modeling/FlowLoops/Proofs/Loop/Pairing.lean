import FlowLoops.Proofs.Graph.Matching
import FlowLoops.Proofs.Loop.Soundness

/-! Graphs that are equal up to the numbering of their blocks have loops both or neither. The search
takes another course in each of them, and the loops it finds may differ, but a closed walk of the
one is one of the other. -/

namespace FlowLoops

theorem ClosedWalk.map {α β : Type} {R : α → α → Prop} {S : β → β → Prop} {w : List α}
    (closed : ClosedWalk R w) (f : α → β) (step : ∀ a b, R a b → S (f a) (f b)) :
    ClosedWalk S (w.map f) := by
  refine ⟨List.isChain_map_of_isChain f step closed.chain, ?_, ?_⟩
  · rw [List.head?_map, List.getLast?_map, closed.closed]
  · rw [List.length_map]
    exact closed.two_le

variable {g h : Graph}

theorem acyclic_of_loops_nil (hg : g.Reachable) (detected : g.loops = .ok []) :
    Acyclic g.Adjacent := by
  obtain ⟨way, found, hf, detected'⟩ := exists_forest hg
  obtain rfl := List.map_eq_nil_iff.mp (Except.ok.inj (detected'.symm.trans detected))
  exact hf.acyclic.mono fun u v step => ⟨step, List.not_mem_nil⟩

namespace Graph.Pairing

theorem exists_closedWalk (p : Pairing g h) (hg : g.Reachable) (hh : h.Reachable)
    {w : List BlockId} (closed : ClosedWalk g.Adjacent w) : ∃ w', ClosedWalk h.Adjacent w' := by
  obtain ⟨σ, along, -⟩ := exists_perm_extending p.index
  refine ⟨_, closed.map (fun b => h.handle (σ b.index)) fun u v step => ?_⟩
  obtain ⟨-, -, he⟩ := hg.adjacent_iff.mp step
  have joined := p.joined ⟨u.index, hg.consistent.source_lt _ he⟩
    ⟨v.index, hg.consistent.target_lt _ he⟩
  rw [← along, ← along] at joined
  have edge := List.count_pos_iff.mp (joined.mpr (List.count_pos_iff.mpr he))
  exact hh.adjacent_iff.mpr ⟨rfl, rfl, edge⟩

theorem loops_eq_nil (p : Pairing g h) (hg : g.Reachable) (hh : h.Reachable)
    (none : h.loops = .ok []) {loops : List Loop} (detected : g.loops = .ok loops) :
    loops = [] := by
  refine List.eq_nil_iff_forall_not_mem.mpr fun l hl => ?_
  obtain ⟨header, rest, latch, round⟩ := isRound_of_mem_loops hg detected hl
  obtain ⟨w, closed⟩ := p.exists_closedWalk hg hh round.closedWalk
  exact acyclic_of_loops_nil hh none w closed

end Graph.Pairing

theorem loop_free_of_alike (hg : g.Reachable) (hh : h.Reachable) (equal : g.alike h = true) :
    ∃ loops loops', g.loops = .ok loops ∧ h.loops = .ok loops' ∧ (loops = [] ↔ loops' = []) := by
  obtain ⟨-, -, ⟨p⟩⟩ := (Graph.alike_iff_pairing hg hh).mp equal
  obtain ⟨way, found, -, detected⟩ := exists_forest hg
  obtain ⟨way', found', -, detected'⟩ := exists_forest hh
  refine ⟨_, _, detected, detected', fun none => ?_, fun none => ?_⟩
  · exact p.symm.loops_eq_nil hh hg (none ▸ detected) detected'
  · exact p.loops_eq_nil hg hh (none ▸ detected') detected

namespace Graph

def twoWays : Graph := ofLists 0 ["enter", "left", "right"] [⟨0, 1⟩, ⟨0, 2⟩, ⟨1, 2⟩, ⟨2, 1⟩]

def twoWaysBack : Graph := ofLists 1 ["right", "left", "enter"] [⟨1, 0⟩, ⟨2, 0⟩, ⟨0, 1⟩, ⟨2, 1⟩]

theorem loops_twoWays : twoWays.loops = .ok [⟨[⟨0, 1⟩, ⟨0, 2⟩, ⟨0, 1⟩]⟩] := by
  cbv

end Graph

theorem loops_twoWaysBack : Graph.twoWays.alike Graph.twoWaysBack = true ∧
    Graph.twoWays.loops = .ok [⟨[⟨0, 1⟩, ⟨0, 2⟩, ⟨0, 1⟩]⟩] ∧
    ∃ loops, Graph.twoWaysBack.loops = .ok loops ∧ loops ≠ [] := by
  have equal : Graph.twoWays.alike Graph.twoWaysBack = true := by decide +kernel
  obtain ⟨loops, loops', detected, detected', both⟩ := loop_free_of_alike
    (Graph.reachable_ofLists (by decide)) (Graph.reachable_ofLists (by decide)) equal
  obtain rfl := Except.ok.inj (detected.symm.trans Graph.loops_twoWays)
  refine ⟨equal, Graph.loops_twoWays, loops', detected', fun none => ?_⟩
  cases both.mpr none

end FlowLoops
