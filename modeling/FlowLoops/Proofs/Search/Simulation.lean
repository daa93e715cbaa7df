import FlowLoops.Loop.Detection
import FlowLoops.Proofs.Search.Recursive
import FlowLoops.Proofs.Search.Run

/-! The stack of frames does what the recursion does. To examine the successors ahead of the top
frame, the search goes through as many steps as the calls take, and comes back to that frame. -/

namespace FlowLoops
namespace Search
variable {g : Graph} {s : Search} {w : Tour} {b next : BlockId}

structure Represents (g : Graph) (s : Search) (w : Tour) : Prop where
  visited_iff : ∀ b, g.Owns b → (b ∈ w.visited ↔ ¬ s.Fresh b)
  onStack_iff : ∀ b, b ∈ w.onStack ↔ b ∈ s.path.toList
  path_eq : w.path = s.path.toList
  loops_eq : w.loops = s.loops.toList

theorem represents_initial (g : Graph) : Represents g (initial g) .start := by
  refine ⟨fun b hb => ?_, fun b => ?_, rfl, rfl⟩
  · have inside : b.index < g.blockCount := hb.2
    simp [Tour.start, Fresh, initial, inside]
  · simp [Tour.start, initial]

theorem Represents.withFrames (rep : Represents g s w) (frames : List Frame) :
    Represents g (s.withFrames frames) w :=
  ⟨rep.visited_iff, rep.onStack_iff, rep.path_eq, rep.loops_eq⟩

theorem Represents.enter (rep : Represents g s w) (owned : g.Owns b) (fresh : s.Fresh b) :
    Represents g (s.enter g b) (w.enter b) := by
  refine ⟨fun c hc => ?_, fun c => ?_, ?_, rep.loops_eq⟩
  · rw [Tour.enter, Finset.mem_insert, rep.visited_iff c hc, fresh_enter fresh, not_and_or, not_not]
    constructor
    · rintro (rfl | entered)
      · exact .inr rfl
      · exact .inl entered
    · rintro (entered | same)
      · exact .inr entered
      · exact .inl (hc.eq_of_index owned same)
  · rw [Tour.enter, Finset.mem_insert, rep.onStack_iff, path_enter, List.mem_append,
      List.mem_singleton, or_comm]
  · rw [Tour.enter, rep.path_eq, path_enter]

theorem Represents.record (rep : Represents g s w) (h : Invariant g s) (owned : g.Owns next)
    {position : Nat} (active : s.marks[next.index]? = some (.active position)) :
    Represents g (s.record b next position) (w.close next) := by
  refine ⟨rep.visited_iff, rep.onStack_iff, rep.path_eq, ?_⟩
  rw [Tour.close, Search.record, Array.toList_push, rep.loops_eq, rep.path_eq,
    h.suffix_of_active owned active]

theorem Represents.leave (rep : Represents g s w) (h : Invariant g s)
    {passed ahead : List BlockId} {below : List Frame}
    (top : s.frames = ⟨b, passed, ahead⟩ :: below) :
    Represents g (s.leave b below) (w.leave b) := by
  have path := h.path_eq_leave top
  refine ⟨fun c hc => ?_, fun c => ?_, ?_, rep.loops_eq⟩
  · rw [fresh_leave (h.not_fresh_of_top top)]
    exact rep.visited_iff c hc
  · rw [Tour.leave, Finset.mem_erase, rep.onStack_iff, path, List.mem_append, List.mem_singleton]
    constructor
    · rintro ⟨other, kept | same⟩
      · exact kept
      · exact absurd same other
    · intro kept
      refine ⟨?_, .inl kept⟩
      rintro rfl
      exact h.not_mem_path_leave top kept
  · rw [Tour.leave, rep.path_eq, path, List.dropLast_concat]

/-- From a state with a block on top of the stack, the search comes to one where all successors of
that block are examined. -/
theorem exhaust_examine (hg : g.Reachable) {ahead : List BlockId} (h : Invariant g s)
    (rep : Represents g s w) {passed : List BlockId} {below : List Frame}
    (top : s.frames = ⟨b, passed, ahead⟩ :: below) :
    ∃ t passed', s.exhaust g = t.exhaust g ∧ Invariant g t ∧
      t.frames = ⟨b, passed', []⟩ :: below ∧ Represents g t (w.examine g ahead).val := by
  induction w, ahead using Tour.examine.induct g generalizing s b passed below with
  | case1 w => exact ⟨s, passed, rfl, h, top, Tour.examine_nil.symm ▸ rep⟩
  | case2 w next rest onStack ih =>
    have owned : g.Owns next := (h.next_adjacent top).owns_right hg
    obtain ⟨position, active⟩ :=
      (h.mem_path_iff_active owned).mp ((rep.onStack_iff next).mp onStack)
    have m : Move g s _ := .close top active
    obtain ⟨t, passed', ends, ht, top', rep'⟩ :=
      ih (h.move hg m) ((rep.withFrames _).record (h.pass top) owned active) rfl
    rw [Tour.examine_onStack onStack]
    refine ⟨t, passed', ?_, ht, top', rep'⟩
    rw [exhaust_of_step (by simp [top]) (step_close h top active), ends]
  | case3 w next rest inactive visited ih =>
    have owned : g.Owns next := (h.next_adjacent top).owns_right hg
    have off : next ∉ s.path.toList := fun mem => inactive ((rep.onStack_iff next).mpr mem)
    have finished : s.Finished next :=
      h.finished_of_not_fresh owned ((rep.visited_iff next owned).mp visited) off
    have m : Move g s _ := .skip top finished
    obtain ⟨t, passed', ends, ht, top', rep'⟩ := ih (h.move hg m) (rep.withFrames _) rfl
    rw [Tour.examine_visited inactive visited]
    refine ⟨t, passed', ?_, ht, top', rep'⟩
    rw [exhaust_of_step (by simp [top]) (step_skip top finished), ends]
  | case4 w next rest inactive unseen inner _ call ih₁ ih₂ =>
    have owned : g.Owns next := (h.next_adjacent top).owns_right hg
    have fresh : s.Fresh next := by
      rw [rep.visited_iff next owned, not_not] at unseen
      exact unseen
    have m : Move g s _ := .descend top fresh
    obtain ⟨t, seen, descends, ht, top', rep₁⟩ :=
      ih₁ (h.move hg m) ((rep.withFrames _).enter owned fresh) rfl
    rw [call] at rep₁
    -- the call for `next` has ended with its frame still on the stack
    have back : Move g t _ := .leave top'
    obtain ⟨u, passed', ends, hu, top'', rep₂⟩ := ih₂ (ht.move hg back) (rep₁.leave ht top') rfl
    rw [Tour.examine_unvisited inactive unseen, Tour.visit, call]
    refine ⟨u, passed', ?_, hu, top'', rep₂⟩
    rw [exhaust_of_step (by simp [top]) (step_descend hg h top fresh), descends,
      exhaust_of_step (by simp [top']) (step_leave ht top'), ends]

theorem explore_visit (hg : g.Reachable) (h : Invariant g s) (idle : s.frames = [])
    (rep : Represents g s w) (owned : g.Owns b) (fresh : s.Fresh b) :
    ∃ t, s.explore g b = .ok t ∧ Invariant g t ∧ t.frames = [] ∧ Represents g t (w.visit g b) := by
  have entered : Invariant g (s.enter g b) := h.enter owned fresh (by simp [idle])
  have top : (s.enter g b).frames = ⟨b, [], g.targets b⟩ :: [] := by simp [Search.enter, idle]
  obtain ⟨t, passed, ends, ht, top', rep'⟩ :=
    exhaust_examine hg entered (rep.enter owned fresh) top
  refine ⟨t.leave b [], ?_, ht.leave top', rfl, rep'.leave ht top'⟩
  simp only [explore, descend_eq_ok h owned]
  rw [ends, exhaust_of_step (by simp [top']) (step_leave ht top'), exhaust_of_idle rfl]

theorem exploreAll_visitAll (hg : g.Reachable) {roots : List BlockId}
    (owned : ∀ b ∈ roots, g.Owns b) (h : Invariant g s) (idle : s.frames = [])
    (rep : Represents g s w) :
    ∃ t, s.exploreAll g roots = .ok t ∧ Represents g t (w.visitAll g roots) := by
  induction roots generalizing s w with
  | nil => exact ⟨s, rfl, rep⟩
  | cons root rest ih =>
    obtain ⟨owned, others⟩ := List.forall_mem_cons.mp owned
    rw [Tour.visitAll]
    by_cases fresh : s.Fresh root
    · obtain ⟨t, explored, ht, idle', rep'⟩ := explore_visit hg h idle rep owned fresh
      obtain ⟨u, all, rep''⟩ := ih others ht idle' rep'
      have unseen : root ∉ w.visited := fun visited => (rep.visited_iff root owned).mp visited fresh
      rw [if_neg unseen]
      refine ⟨u, ?_, rep''⟩
      rw [exploreAll_of_fresh fresh explored, all]
    · rw [if_pos ((rep.visited_iff root owned).mpr fresh)]
      obtain ⟨u, all, rep'⟩ := ih others h idle rep
      exact ⟨u, (exploreAll_of_not_fresh (h.lt_size owned) fresh).trans all, rep'⟩

theorem exists_represents (hg : g.Reachable) :
    ∃ s, ofGraph g = .ok s ∧ Represents g s (Tour.start.visitAll g g.handles) :=
  exploreAll_visitAll hg (fun _ hb => Graph.mem_handles.mp hb) (invariant_initial g) rfl
    (represents_initial g)

end Search

theorem loops_eq_recursiveLoops {g : Graph} (hg : g.Reachable) :
    g.loops = .ok g.recursiveLoops := by
  have owned : ∀ b ∈ g.handles, g.Owns b := fun b hb => Graph.mem_handles.mp hb
  obtain ⟨s, made, rep⟩ := Search.exploreAll_visitAll hg owned (Search.invariant_initial g) rfl
    (Search.represents_initial g)
  rw [Graph.loops, Search.ofGraph, made, Graph.recursiveLoops, rep.loops_eq]
  rfl

theorem recursiveLoops_nested : Graph.nested.Reachable ∧ Graph.nested.recursiveLoops =
    [⟨[⟨0, 1⟩, ⟨0, 2⟩, ⟨0, 1⟩]⟩, ⟨[⟨0, 2⟩, ⟨0, 2⟩]⟩, ⟨[⟨0, 0⟩, ⟨0, 1⟩, ⟨0, 3⟩, ⟨0, 0⟩]⟩] := by
  have detected := loops_eq_recursiveLoops Graph.reachable_nested
  exact ⟨Graph.reachable_nested, Except.ok.inj (detected.symm.trans Graph.loops_nested)⟩

end FlowLoops
