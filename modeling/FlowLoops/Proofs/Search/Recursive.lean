import FlowLoops.Loop.Basic
import FlowLoops.Proofs.Graph.Walk
import Mathlib.Data.Finset.Card
import Mathlib.Data.Finset.SDiff

/-! The search for loops as a recursion, with the two sets and the path that its description names.
A call goes on with blocks not visited before, or with fewer successors, and so the recursion ends.
-/

namespace FlowLoops

structure Tour where
  visited : Finset BlockId
  onStack : Finset BlockId
  path : List BlockId
  loops : List Loop

namespace Tour

def start : Tour := ⟨∅, ∅, [], []⟩

def enter (w : Tour) (b : BlockId) : Tour :=
  ⟨insert b w.visited, insert b w.onStack, w.path ++ [b], w.loops⟩

def close (w : Tour) (b : BlockId) : Tour :=
  { w with loops := w.loops ++ [⟨w.path.drop (w.path.idxOf b) ++ [b]⟩] }

def leave (w : Tour) (b : BlockId) : Tour :=
  ⟨w.visited, w.onStack.erase b, w.path.dropLast, w.loops⟩

def unvisited (g : Graph) (w : Tour) : Finset BlockId := g.handles.toFinset \ w.visited

theorem card_unvisited_le {g : Graph} {w w' : Tour} (grows : w.visited ⊆ w'.visited) :
    (w'.unvisited g).card ≤ (w.unvisited g).card :=
  Finset.card_le_card (Finset.sdiff_subset_sdiff (Finset.Subset.refl _) grows)

theorem card_unvisited_enter_lt {g : Graph} {w : Tour} {b : BlockId} (owned : g.Owns b)
    (unseen : b ∉ w.visited) : ((w.enter b).unvisited g).card < (w.unvisited g).card := by
  refine Finset.card_lt_card ⟨?_, fun sub => ?_⟩
  · exact Finset.sdiff_subset_sdiff (Finset.Subset.refl _) (Finset.subset_insert b w.visited)
  · have mem : b ∈ w.unvisited g :=
      Finset.mem_sdiff.mpr ⟨List.mem_toFinset.mpr (Graph.mem_handles.mpr owned), unseen⟩
    exact (Finset.mem_sdiff.mp (sub mem)).2 (Finset.mem_insert_self b w.visited)

/-- Examines successors in order: one on the stack closes a loop, one not visited yet is visited
with all that follows from it, and any other is ignored. Nothing visited is forgotten. -/
def examine (g : Graph) (w : Tour) : List BlockId → {after : Tour // w.visited ⊆ after.visited}
  | [] => ⟨w, Finset.Subset.refl _⟩
  | next :: rest =>
    if next ∈ w.onStack then
      let after := (w.close next).examine g rest
      ⟨after.val, after.property⟩
    else if next ∈ w.visited then w.examine g rest
    else
      match (w.enter next).examine g (g.targets next) with
      | ⟨inner, deeper⟩ =>
        let after := (inner.leave next).examine g rest
        ⟨after.val, (Finset.subset_insert _ _).trans (deeper.trans after.property)⟩
termination_by successors => ((w.unvisited g).card, successors.length)
decreasing_by
  · exact .right _ (Nat.lt_succ_self _)
  · exact .right _ (Nat.lt_succ_self _)
  · by_cases owned : g.Owns next
    · exact .left _ _ (card_unvisited_enter_lt owned ‹_›)
    · -- a foreign block takes nothing off the blocks to visit, but it has no successors
      rw [Graph.targets_of_not_owns owned]
      exact Prod.Lex.right' _ (card_unvisited_le (Finset.subset_insert next w.visited))
        (Nat.succ_pos rest.length)
  · have kept : w.visited ⊆ inner.visited := (Finset.subset_insert next w.visited).trans deeper
    exact Prod.Lex.right' _ (card_unvisited_le kept) (Nat.lt_succ_self _)

def visit (g : Graph) (w : Tour) (b : BlockId) : Tour :=
  ((w.enter b).examine g (g.targets b)).val.leave b

def visitAll (g : Graph) (w : Tour) : List BlockId → Tour
  | [] => w
  | root :: rest => if root ∈ w.visited then w.visitAll g rest else (w.visit g root).visitAll g rest

section Examine
variable {g : Graph} {w : Tour} {next : BlockId} {rest : List BlockId}

theorem examine_nil : (w.examine g []).val = w := by
  rw [examine]

theorem examine_onStack (active : next ∈ w.onStack) :
    (w.examine g (next :: rest)).val = ((w.close next).examine g rest).val := by
  rw [examine, if_pos active]

theorem examine_visited (inactive : next ∉ w.onStack) (visited : next ∈ w.visited) :
    (w.examine g (next :: rest)).val = (w.examine g rest).val := by
  rw [examine, if_neg inactive, if_pos visited]

theorem examine_unvisited (inactive : next ∉ w.onStack) (unseen : next ∉ w.visited) :
    (w.examine g (next :: rest)).val = ((w.visit g next).examine g rest).val := by
  rw [examine, if_neg inactive, if_neg unseen, visit]

theorem stack_examine (ahead : List BlockId) :
    (w.examine g ahead).val.onStack = w.onStack ∧ (w.examine g ahead).val.path = w.path := by
  induction w, ahead using Tour.examine.induct g with
  | case1 w => rw [examine_nil]; exact ⟨rfl, rfl⟩
  | case2 w next rest onStack ih =>
    rw [examine_onStack onStack]
    exact ih
  | case3 w next rest inactive visited ih =>
    rw [examine_visited inactive visited]
    exact ih
  | case4 w next rest inactive unseen inner _ call ih₁ ih₂ =>
    rw [examine_unvisited inactive unseen, visit, call]
    rw [call] at ih₁
    have stack : (inner.leave next).onStack = w.onStack := by
      rw [leave, ih₁.1, enter, Finset.erase_insert inactive]
    have path : (inner.leave next).path = w.path := by
      rw [leave, ih₁.2, enter, List.dropLast_concat]
    exact ⟨ih₂.1.trans stack, ih₂.2.trans path⟩

theorem loops_prefix_examine (ahead : List BlockId) :
    w.loops <+: (w.examine g ahead).val.loops := by
  induction w, ahead using Tour.examine.induct g with
  | case1 w => rw [examine_nil]
  | case2 w next rest onStack ih =>
    rw [examine_onStack onStack]
    exact (List.prefix_append w.loops _).trans ih
  | case3 w next rest inactive visited ih =>
    rw [examine_visited inactive visited]
    exact ih
  | case4 w next rest inactive unseen inner _ call ih₁ ih₂ =>
    rw [examine_unvisited inactive unseen, visit, call]
    rw [call] at ih₁
    have deeper : w.loops <+: (inner.leave next).loops := ih₁
    exact deeper.trans ih₂

theorem path_visit : (w.visit g next).path = w.path := by
  rw [visit, leave, (stack_examine _).2, enter, List.dropLast_concat]

theorem onStack_visit (inactive : next ∉ w.onStack) : (w.visit g next).onStack = w.onStack := by
  rw [visit, leave, (stack_examine _).1, enter, Finset.erase_insert inactive]

theorem visited_visit : insert next w.visited ⊆ (w.visit g next).visited :=
  ((w.enter next).examine g (g.targets next)).property

theorem loops_prefix_visit : w.loops <+: (w.visit g next).loops :=
  loops_prefix_examine (w := w.enter next) (g.targets next)

theorem loops_prefix_visitAll (roots : List BlockId) : w.loops <+: (w.visitAll g roots).loops := by
  induction roots generalizing w with
  | nil => exact List.prefix_refl w.loops
  | cons root rest ih =>
    rw [visitAll]
    split
    · exact ih
    · exact loops_prefix_visit.trans ih

end Examine
end Tour

def Graph.recursiveLoops (g : Graph) : List Loop := (Tour.start.visitAll g g.handles).loops

end FlowLoops
