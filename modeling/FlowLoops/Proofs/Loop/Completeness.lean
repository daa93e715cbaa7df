import FlowLoops.Proofs.Loop.Soundness

/-! No directed cycle escapes the search: each takes an edge that closes a loop. -/

namespace FlowLoops
variable {g : Graph}

theorem back_edge_on_closedWalk (hg : g.Reachable) :
    ∃ loops, g.loops = .ok loops ∧
      (∀ w, ClosedWalk g.Adjacent w → ∃ u v, [u, v] <:+: w ∧ Reported loops u v) ∧
      (Acyclic fun u v => g.Adjacent u v ∧ ¬ Reported loops u v) ∧
      (loops = [] ↔ Acyclic g.Adjacent) := by
  obtain ⟨way, found, hf, detected⟩ := exists_forest hg
  have left_iff {u v : BlockId} : g.Adjacent u v ∧ ¬ Reported (found.map (loopAlong way)) u v ↔
      g.Adjacent u v ∧ ⟨u, v⟩ ∉ found := by
    rw [hf.reported_iff, hf.back_iff]
  -- a closed walk cannot keep to the edges left, and every loop found is itself a closed walk
  refine ⟨_, detected, fun w closed => ?_, hf.acyclic.mono fun u v => left_iff.mp, ?_⟩
  · obtain ⟨u, v, step, adjacent, missing⟩ := closed.exists_step hf.acyclic
    refine ⟨u, v, step, by_contra fun unreported => ?_⟩
    exact missing (left_iff.mp ⟨adjacent, unreported⟩)
  · rw [List.map_eq_nil_iff]
    constructor
    · rintro rfl
      exact hf.acyclic.mono fun u v adjacent => ⟨adjacent, List.not_mem_nil⟩
    · intro none
      rw [List.eq_nil_iff_forall_not_mem]
      intro e he
      obtain ⟨rest, round⟩ := hf.isRound he
      exact none _ round.closedWalk

theorem not_acyclic_nested : Graph.nested.Reachable ∧ ¬ Acyclic Graph.nested.Adjacent := by
  obtain ⟨loops, detected, -, -, empty_iff⟩ := back_edge_on_closedWalk Graph.reachable_nested
  obtain rfl := Except.ok.inj (detected.symm.trans Graph.loops_nested)
  refine ⟨Graph.reachable_nested, fun acyclic => ?_⟩
  cases empty_iff.mpr acyclic

end FlowLoops
