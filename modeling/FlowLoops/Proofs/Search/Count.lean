import FlowLoops.Proofs.Search.Way

/-! How often an edge closes a loop. Its copies are classified alike: where one of them is a back
edge every copy looked at has been one, so that back edges can be counted where edges are. -/

namespace FlowLoops
namespace Search
variable {g : Graph} {s t : Search} {b u v next : BlockId} {way : BlockId → List BlockId}
  {passed ahead : List BlockId} {below : List Frame}

def backCount (s : Search) (u v : BlockId) : Nat := s.backEdges.toList.count ⟨u, v⟩

structure Counted (g : Graph) (s : Search) : Prop where
  active : ∀ f ∈ s.frames, ∀ v,
    s.backCount f.block v = 0 ∨ s.backCount f.block v = f.passed.count v
  finished : ∀ u, g.Owns u → s.Finished u → ∀ v,
    s.backCount u v = 0 ∨ s.backCount u v = (g.targets u).count v

theorem backCount_eq_zero : s.backCount u v = 0 ↔ ⟨u, v⟩ ∉ s.backEdges.toList :=
  List.count_eq_zero

theorem backCount_record {latch header : BlockId} {position : Nat} :
    (s.record latch header position).backCount u v =
      s.backCount u v + if latch = u ∧ header = v then 1 else 0 := by
  rw [backCount, record, Array.toList_push, List.count_append, List.count_singleton, backCount]
  simp

theorem Ways.backCount_of_fresh (hw : Ways g s way) (h : Invariant g s) (fresh : s.Fresh b)
    (v : BlockId) : s.backCount b v = 0 :=
  backCount_eq_zero.mpr fun back => h.not_fresh_of_passed (hw.back ⟨b, v⟩ back).1 fresh

theorem Ways.backCount_of_not_mem (hw : Ways g s way) (h : Invariant g s)
    (top : s.frames = ⟨b, passed, ahead⟩ :: below) (off : v ∉ s.path.toList) :
    s.backCount b v = 0 := by
  rw [backCount_eq_zero]
  intro back
  have mem : v ∈ way b := (hw.back ⟨b, v⟩ back).2
  exact off (hw.way_of_top h top ▸ mem)

theorem Invariant.block_ne_of_below (h : Invariant g s)
    (top : s.frames = ⟨b, passed, ahead⟩ :: below) {f : Frame} (hf : f ∈ below) : f.block ≠ b := by
  rintro rfl
  have mem : f.block ∈ (s.leave f.block below).path.toList := by
    rw [h.path_leave top, List.mem_reverse]
    exact List.mem_map_of_mem hf
  exact h.not_mem_path_leave top mem

theorem Counted.enter {frames : List Frame} (c : Counted g (s.withFrames frames))
    (fresh : s.Fresh b) (none : ∀ v, s.backCount b v = 0) :
    Counted g ((s.withFrames frames).enter g b) := by
  refine ⟨fun f hf v => ?_, fun u hu finished v => ?_⟩
  · rcases List.mem_cons.mp hf with rfl | hf
    · exact .inl (none v)
    · exact c.active f hf v
  · exact c.finished u hu ((finished_enter (fresh_withFrames.mpr fresh)).mp finished) v

theorem Counted.pass (c : Counted g s) (top : s.frames = ⟨b, passed, next :: ahead⟩ :: below)
    (none : s.backCount b next = 0) :
    Counted g (s.withFrames (⟨b, next :: passed, ahead⟩ :: below)) := by
  refine ⟨fun f hf v => ?_, c.finished⟩
  rcases List.mem_cons.mp hf with rfl | hf
  · by_cases same : next = v
    · exact .inl (same ▸ none)
    · rw [List.count_cons_of_ne same]
      exact c.active ⟨b, passed, next :: ahead⟩ (top ▸ List.mem_cons_self) v
  · exact c.active f (top ▸ List.mem_cons_of_mem _ hf) v

/-- A copy of the next edge that was passed while its target was on the path closed a loop. -/
theorem Counted.backCount_eq (c : Counted g s) (hw : Ways g s way) (h : Invariant g s)
    (top : s.frames = ⟨b, passed, next :: ahead⟩ :: below) (on_path : next ∈ s.path.toList) :
    s.backCount b next = passed.count next := by
  have frame : (⟨b, passed, next :: ahead⟩ : Frame) ∈ s.frames := top ▸ List.mem_cons_self
  rcases c.active _ frame next with none | counted
  · have never : next ∉ passed := fun looked =>
      backCount_eq_zero.mp none (hw.passed b next (.inl ⟨_, frame, rfl, looked⟩)
        (hw.way_of_top h top ▸ on_path))
    exact none.trans (List.count_eq_zero.mpr never).symm
  · exact counted

theorem Counted.close (c : Counted g s) (hw : Ways g s way) (h : Invariant g s)
    (top : s.frames = ⟨b, passed, next :: ahead⟩ :: below) (on_path : next ∈ s.path.toList)
    (position : Nat) :
    Counted g ((s.withFrames (⟨b, next :: passed, ahead⟩ :: below)).record b next position) := by
  have frame : (⟨b, passed, next :: ahead⟩ : Frame) ∈ s.frames := top ▸ List.mem_cons_self
  have of_other {u : BlockId} (other : u ≠ b) (v : BlockId) :
      ((s.withFrames (⟨b, next :: passed, ahead⟩ :: below)).record b next position).backCount u v =
        s.backCount u v := by
    rw [backCount_record, if_neg fun same => other same.1.symm]
    rfl
  refine ⟨fun f hf v => ?_, fun u hu finished v => ?_⟩
  · rcases List.mem_cons.mp hf with rfl | hf
    · rw [backCount_record]
      by_cases same : next = v
      · have counted := c.backCount_eq hw h top on_path
        rw [← same, if_pos ⟨rfl, rfl⟩, List.count_cons_self]
        exact .inr (congrArg (· + 1) counted)
      · rw [if_neg fun both => same both.2, List.count_cons_of_ne same]
        exact c.active _ frame v
    · rw [of_other (h.block_ne_of_below top hf)]
      exact c.active f (top ▸ List.mem_cons_of_mem _ hf) v
  · have other : u ≠ b := by
      rintro rfl
      exact h.not_mem_path_of_finished finished (h.mem_path.mpr ⟨_, frame, rfl⟩)
    rw [of_other other]
    exact c.finished u hu finished v

theorem Counted.leave (c : Counted g s) (h : Invariant g s)
    (top : s.frames = ⟨b, passed, []⟩ :: below) : Counted g (s.leave b below) := by
  have owned := h.owned_of_top top
  refine ⟨fun f hf v => c.active f (top ▸ List.mem_cons_of_mem _ hf) v, fun u hu finished v => ?_⟩
  rcases (finished_leave (h.lt_size owned)).mp finished with before | same
  · exact c.finished u hu before v
  · obtain rfl : u = b := hu.eq_of_index owned same
    -- the frame that is left has passed each copy of each edge
    have all := h.targets_of_top top
    rw [List.append_nil] at all
    rw [← all, List.count_reverse]
    exact c.active ⟨u, passed, []⟩ (top ▸ List.mem_cons_self) v

theorem Counted.move (hg : g.Reachable) (c : Counted g s) (hw : Ways g s way) (h : Invariant g s)
    (m : Move g s t) : Counted g t := by
  cases m with
  | root idle owned fresh _ =>
    have idle' : Counted g (s.withFrames s.frames) := c
    exact idle'.enter fresh (hw.backCount_of_fresh h fresh)
  | descend top fresh =>
    have none := hw.backCount_of_not_mem h top (h.not_mem_path_of_fresh fresh)
    exact (c.pass top none).enter fresh (hw.backCount_of_fresh h fresh)
  | close top active =>
    have owned := (h.next_adjacent top).owns_right hg
    exact c.close hw h top ((h.mem_path_iff_active owned).mpr ⟨_, active⟩) _
  | skip top finished =>
    exact c.pass top (hw.backCount_of_not_mem h top (h.not_mem_path_of_finished finished))
  | leave top => exact c.leave h top

theorem Run.counted (hg : g.Reachable) (run : Run g s) : Counted g s := by
  induction run with
  | refl =>
    refine ⟨fun f hf => ?_, fun u hu finished => ?_⟩
    · cases hf
    · simp [Finished, initial, Array.getElem?_replicate] at finished
  | tail before m ih =>
    have run : Run g _ := before
    obtain ⟨way, hw⟩ := run.exists_ways hg
    exact ih.move hg hw (run.invariant hg) m

theorem Run.count_backEdges (hg : g.Reachable) (run : Run g s)
    (finished : ∀ b, g.Owns b → s.Finished b) {e : BackEdge} (he : e ∈ s.backEdges.toList) :
    s.backEdges.toList.count e = (g.targets e.latch).count e.header := by
  obtain ⟨way, hw⟩ := run.exists_ways hg
  have adjacent := (run.invariant hg).adjacent_of_passed (hw.back e he).1
  have owned := adjacent.owns_left
  rcases (run.counted hg).finished e.latch owned (finished _ owned) e.header with none | counted
  · exact absurd he (backCount_eq_zero.mp none)
  · exact counted

end Search
end FlowLoops
