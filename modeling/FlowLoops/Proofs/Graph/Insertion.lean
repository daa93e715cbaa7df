import FlowLoops.Graph.Basic

/-! The two insertions of an edge. The asserting one stops at a foreign end. The checked one looks
at both ends on its own, and the asserts that it still passes through never fire. -/

namespace FlowLoops
namespace Graph
variable {g h : Graph} {source target : BlockId}

/-- The end that an insertion is refused for: the source if it is foreign, otherwise the target. -/
inductive Blames (g : Graph) (source target : BlockId) : BlockId → Prop
  | source (foreign : ¬ g.Owns source) : Blames g source target source
  | target (owned : g.Owns source) (foreign : ¬ g.Owns target) : Blames g source target target

/-- How the insertion of an edge ends in its two forms. -/
inductive Insertion (g : Graph) (source target : BlockId) : Prop
  | made (owned : g.Owns source ∧ g.Owns target)
    (connect : g.connect source target = .ok (g.link source.index target.index))
    (connectChecked : g.connectChecked source target = .ok (g.link source.index target.index))
  | refused {foreign : BlockId} (blamed : g.Blames source target foreign)
    (connect : g.connect source target = .error (.foreignBlock foreign))
    (connectChecked : g.connectChecked source target = .error (.violation (.foreignBlock foreign)))
    (text : (Violation.foreignBlock foreign).message = (Fault.foreignBlock foreign).message)

theorem insertion (g : Graph) (source target : BlockId) : g.Insertion source target := by
  by_cases hs : g.Owns source
  · by_cases ht : g.Owns target
    · have connect : g.connect source target = .ok (g.link source.index target.index) := by
        simp only [Graph.connect, hs, ht]
        rfl
      refine .made ⟨hs, ht⟩ connect ?_
      -- both turns of the loop pass, and what is left is the asserting insertion
      simp only [connectChecked, hs, ht, if_true, List.forIn_cons, connect]
      rfl
    · refine .refused (.target hs ht) ?_ ?_ rfl
      · simp only [connect, hs, ht]
        rfl
      · simp only [connectChecked, hs, ht, if_true, if_false, List.forIn_cons]
        rfl
  · refine .refused (.source hs) ?_ ?_ rfl
    · simp only [connect, hs]
      rfl
    · simp only [connectChecked, hs, if_false, List.forIn_cons]
      rfl

theorem Blames.not_owned {foreign : BlockId} (blamed : g.Blames source target foreign) :
    ¬ (g.Owns source ∧ g.Owns target) := by
  cases blamed with
  | source foreign => exact fun owned => foreign owned.1
  | target _ foreign => exact fun owned => foreign owned.2

theorem connect_eq_ok : g.connect source target = .ok h ↔
    (g.Owns source ∧ g.Owns target) ∧ h = g.link source.index target.index := by
  cases g.insertion source target with
  | made owned connect _ => simp [connect, owned, eq_comm]
  | refused blamed connect _ _ => simp [connect, blamed.not_owned]

theorem connectChecked_eq_ok : g.connectChecked source target = .ok h ↔
    (g.Owns source ∧ g.Owns target) ∧ h = g.link source.index target.index := by
  cases g.insertion source target with
  | made owned _ connectChecked => simp [connectChecked, owned, eq_comm]
  | refused blamed _ connectChecked _ => simp [connectChecked, blamed.not_owned]

theorem connectChecked_ne_fault (g : Graph) (source target : BlockId) (fault : Fault) :
    g.connectChecked source target ≠ .error (.fault fault) := by
  cases g.insertion source target with
  | made _ _ connectChecked => simp [connectChecked]
  | refused _ _ connectChecked _ => simp [connectChecked]

theorem connect_eq_error {fault : Fault} (refused : g.connect source target = .error fault) :
    ∃ foreign, fault = .foreignBlock foreign := by
  cases g.insertion source target with
  | made _ connect _ => simp [connect] at refused
  | refused _ connect _ _ => exact ⟨_, Except.error.inj (refused.symm.trans connect)⟩

end Graph
end FlowLoops
