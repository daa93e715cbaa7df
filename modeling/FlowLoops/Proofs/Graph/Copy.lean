import FlowLoops.Proofs.Loop.Shape

/-! Copies under another tag. A copy does what its original does, with handles of its own. -/

namespace FlowLoops
namespace Graph
variable {g : Graph} {b : BlockId}

theorem owns_copy (hb : g.Owns b) (tag : Nat) : (g.copy tag).Owns ((g.copy tag).counterpart b) :=
  ⟨rfl, hb.2⟩

theorem content_eq_ok {s : String} :
    g.content b = .ok s ↔
      g.Owns b ∧ ∃ block, g.blocks[b.index]? = some block ∧ block.content = s := by
  unfold content block
  by_cases owned : g.Owns b
  · have inside : b.index < g.blocks.size := owned.2
    simp [owned, Except.map, inside]
  · simp [owned, Except.map]

theorem exists_content (hb : g.Owns b) : ∃ s, g.content b = .ok s :=
  ⟨_, content_eq_ok.mpr ⟨hb, _, Array.getElem?_eq_getElem hb.2, rfl⟩⟩

theorem sameShape_copy (hg : g.Reachable) (tag : Nat) : SameShape g (g.copy tag) :=
  sameShape_of_edges hg (.copy tag hg) rfl rfl

end Graph
end FlowLoops
