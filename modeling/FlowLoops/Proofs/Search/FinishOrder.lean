import FlowLoops.Proofs.Search.Way

/-! The order in which blocks are finished. An edge that was passed and is no back edge leads to a
block that is left before its source is, so along such edges alone no walk goes on for ever. -/

namespace FlowLoops
namespace Search
variable {g : Graph} {s t : Search} {b : BlockId} {way : BlockId → List BlockId}

def Kept (g : Graph) (s : Search) (u v : BlockId) : Prop :=
  g.Adjacent u v ∧ ⟨u, v⟩ ∉ s.backEdges.toList

def Grounded (g : Graph) (s : Search) : Prop :=
  ∀ u, g.Owns u → s.Finished u → Acc (fun y x => Kept g s x y) u

theorem Grounded.mono (hg : Grounded g s) (sub : s.backEdges.toList ⊆ t.backEdges.toList)
    {u : BlockId} (owned : g.Owns u) (finished : s.Finished u) :
    Acc (fun y x => Kept g t x y) u := by
  refine Subrelation.accessible ?_ (hg u owned finished)
  rintro y x ⟨adjacent, missing⟩
  exact ⟨adjacent, fun he => missing (sub he)⟩

/-- When a block is left, its kept edges lead to blocks left before. -/
theorem Ways.finished_of_kept (hg : g.Reachable) (hw : Ways g s way) (h : Invariant g s)
    (hs : Seen g s) {passed : List BlockId} {below : List Frame}
    (top : s.frames = ⟨b, passed, []⟩ :: below) {v : BlockId} (kept : Kept g s b v) :
    s.Finished v := by
  obtain ⟨adjacent, missing⟩ := kept
  have looked : s.Passed g b v := by
    rw [Graph.adjacent_iff, ← h.targets_of_top top, List.append_nil, List.mem_reverse] at adjacent
    exact .inl ⟨_, top ▸ List.mem_cons_self, rfl, adjacent⟩
  have off : v ∉ s.path.toList := by
    rw [← hw.way_of_top h top]
    exact fun mem => missing (hw.passed b v looked mem)
  exact h.finished_of_not_fresh (adjacent.owns_right hg) (hs b v looked) off

theorem Grounded.move (hg : g.Reachable) (ground : Grounded g s) (h : Invariant g s)
    (hs : Seen g s) (hw : Ways g s way) (m : Move g s t) : Grounded g t := by
  cases m with
  | root idle owned fresh _ =>
    intro u hu finished
    exact ground.mono (List.Subset.refl _) hu ((finished_enter fresh).mp finished)
  | descend top fresh =>
    intro u hu finished
    have before := (finished_enter (fresh_withFrames.mpr fresh)).mp finished
    exact ground.mono (List.Subset.refl _) hu before
  | close top active =>
    intro u hu finished
    refine ground.mono ?_ hu finished
    simp [record, withFrames]
  | skip top _ =>
    intro u hu finished
    exact ground.mono (List.Subset.refl _) hu finished
  | @leave b passed below top =>
    have hb := h.owned_of_top top
    have inside := h.lt_size hb
    intro u hu finished
    rcases (finished_leave inside).mp finished with before | same
    · exact ground.mono (List.Subset.refl _) hu before
    · obtain rfl : u = b := hu.eq_of_index hb same
      -- what `u` leads to by kept edges was left before, and is grounded by assumption
      refine .intro u fun v kept => ?_
      have left : s.Finished v := hw.finished_of_kept hg h hs top kept
      exact ground.mono (List.Subset.refl _) (kept.1.owns_right hg) left

theorem Run.grounded (hg : g.Reachable) (run : Run g s) : Grounded g s := by
  induction run with
  | refl =>
    intro u hu finished
    simp [Finished, initial, Array.getElem?_replicate] at finished
  | tail before m ih =>
    have run : Run g _ := before
    obtain ⟨way, hw⟩ := run.exists_ways hg
    exact ih.move hg (run.invariant hg) (run.seen hg) hw m

theorem Run.acyclic (hg : g.Reachable) (run : Run g s) (finished : ∀ b, g.Owns b → s.Finished b) :
    Acyclic fun u v => g.Adjacent u v ∧ ⟨u, v⟩ ∉ s.backEdges.toList := by
  refine acyclic_of_acc fun u v kept => ?_
  have owned : g.Owns u := kept.1.owns_left
  exact run.grounded hg u owned (finished u owned)

end Search
end FlowLoops
