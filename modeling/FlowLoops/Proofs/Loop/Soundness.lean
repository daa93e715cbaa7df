import FlowLoops.Proofs.Loop.Forest
import FlowLoops.Session.Basic

/-! Every loop detected is a round in its graph: it leads from its header over distinct blocks, each
a successor of the one before, and back to the header. -/

namespace FlowLoops
variable {g : Graph} {way : BlockId → List BlockId} {found : List BackEdge}

/-- A loop leads from its header over distinct blocks to its latch, and from there back. -/
structure Loop.IsRound (g : Graph) (l : Loop) (header : BlockId) (rest : List BlockId)
    (latch : BlockId) : Prop where
  blocks : l.blocks = header :: rest ++ [header]
  last : (header :: rest).getLast? = some latch
  nodup : (header :: rest).Nodup
  owned : ∀ b ∈ header :: rest, g.Owns b
  chain : l.blocks.IsChain g.Adjacent

theorem Forest.isRound (hf : Forest g way found) {e : BackEdge} (he : e ∈ found) :
    ∃ rest, (loopAlong way e).IsRound g e.header rest e.latch := by
  obtain ⟨u, v⟩ := e
  obtain ⟨adjacent, mem⟩ := (hf.back_iff u v).mp he
  have isWay := hf.isWay u adjacent.owns_left
  obtain ⟨front, rest, split, last, loop⟩ := isWay.body_loopAlong mem
  obtain ⟨m, -, walk⟩ := isWay.walk
  have part : v :: rest <:+ way u := ⟨front, split.symm⟩
  rw [loop]
  refine ⟨rest, rfl, last, isWay.nodup.sublist part.sublist, fun b hb => ?_, ?_⟩
  · exact isWay.owned b (part.subset hb)
  · exact isChain_concat (walk.chain.suffix part) last adjacent

namespace Loop.IsRound
variable {l : Loop} {header latch : BlockId} {rest : List BlockId}

theorem walk (h : l.IsRound g header rest latch) : Walk g.Adjacent header header l.blocks := by
  refine ⟨h.chain, ?_, ?_⟩
  · rw [h.blocks]
    rfl
  · rw [h.blocks, List.getLast?_concat]

theorem closedWalk (h : l.IsRound g header rest latch) : ClosedWalk g.Adjacent l.blocks := by
  refine ⟨h.chain, h.walk.head.trans h.walk.last.symm, ?_⟩
  rw [h.blocks]
  simp

theorem reaches (h : l.IsRound g header rest latch) :
    ∀ a ∈ l.blocks, ∀ b ∈ l.blocks, g.Reaches a b := by
  intro a ha b hb
  exact (h.walk.through ha).2.trans (h.walk.through hb).1

theorem header_eq (h : l.IsRound g header rest latch) : l.header? = some header := h.walk.head

theorem body_eq (h : l.IsRound g header rest latch) : l.body = header :: rest := by
  rw [Loop.body, h.blocks, List.dropLast_concat]

theorem latch_eq (h : l.IsRound g header rest latch) : l.latch? = some latch := by
  rw [Loop.latch?, h.body_eq, h.last]

theorem length_eq (h : l.IsRound g header rest latch) : l.length = rest.length + 1 := by
  rw [Loop.length, h.body_eq, List.length_cons]

theorem ends_eq (h : l.IsRound g header rest latch) : Session.ends l = .ok (header, latch) := by
  rw [Session.ends, h.header_eq, h.latch_eq]

end Loop.IsRound

theorem isRound_of_mem_loops (hg : g.Reachable) {loops : List Loop}
    (detected : g.loops = .ok loops) {l : Loop} (hl : l ∈ loops) :
    ∃ header rest latch, l.IsRound g header rest latch := by
  obtain ⟨way, found, hf, detected'⟩ := exists_forest hg
  obtain rfl := Except.ok.inj (detected.symm.trans detected')
  obtain ⟨e, he, rfl⟩ := List.mem_map.mp hl
  obtain ⟨rest, round⟩ := hf.isRound he
  exact ⟨e.header, rest, e.latch, round⟩

theorem owns_of_mem_loops (hg : g.Reachable) {loops : List Loop} (detected : g.loops = .ok loops) :
    ∀ l ∈ loops, ∀ b ∈ l.blocks, g.Owns b := by
  intro l hl b hb
  obtain ⟨header, rest, latch, round⟩ := isRound_of_mem_loops hg detected hl
  rw [round.blocks, List.mem_append, List.mem_singleton] at hb
  rcases hb with hb | rfl
  · exact round.owned b hb
  · exact round.owned b List.mem_cons_self

theorem loops_are_rounds (hg : g.Reachable) :
    ∃ loops, g.loops = .ok loops ∧ ∀ l ∈ loops, ∃ header rest latch,
      l.IsRound g header rest latch ∧ l.header? = some header ∧ l.latch? = some latch ∧
      l.body = header :: rest ∧ l.length = rest.length + 1 ∧
      Session.ends l = .ok (header, latch) ∧ ∀ a ∈ l.blocks, ∀ b ∈ l.blocks, g.Reaches a b := by
  obtain ⟨way, found, hf, detected⟩ := exists_forest hg
  refine ⟨_, detected, fun l hl => ?_⟩
  obtain ⟨e, he, rfl⟩ := List.mem_map.mp hl
  obtain ⟨rest, round⟩ := hf.isRound he
  exact ⟨e.header, rest, e.latch, round, round.header_eq, round.latch_eq, round.body_eq,
    round.length_eq, round.ends_eq, round.reaches⟩

theorem reaches_of_nested : Graph.nested.Reachable ∧ Graph.nested.Reaches ⟨0, 3⟩ ⟨0, 1⟩ := by
  obtain ⟨loops, detected, rounds⟩ := loops_are_rounds Graph.reachable_nested
  obtain rfl := Except.ok.inj (detected.symm.trans Graph.loops_nested)
  obtain ⟨header, rest, latch, -, -, -, -, -, -, reaches⟩ :=
    rounds ⟨[⟨0, 0⟩, ⟨0, 1⟩, ⟨0, 3⟩, ⟨0, 0⟩]⟩ (by simp)
  exact ⟨Graph.reachable_nested, reaches ⟨0, 3⟩ (by simp) ⟨0, 1⟩ (by simp)⟩

end FlowLoops
