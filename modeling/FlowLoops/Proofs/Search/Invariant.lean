import FlowLoops.Proofs.Search.Move

/-! The invariant of the search. Marks, path and frames are three accounts of one thing, the active
path: the frames hold its blocks and how far each has come, and a mark holds the place of its block.
No edge that was looked at leads to a block that is still to be entered. -/

namespace FlowLoops
namespace Search
variable {g : Graph} {s t : Search} {b u v : BlockId} {passed ahead : List BlockId}
  {below : List Frame}

structure Invariant (g : Graph) (s : Search) : Prop where
  marks_size : s.marks.size = g.blockCount
  path_eq : s.path.toList = (s.frames.map (·.block)).reverse
  path_nodup : s.path.toList.Nodup
  active_iff : ∀ i position,
    s.marks[i]? = some (.active position) ↔ s.path[position]? = some (g.handle i)
  owned : ∀ f ∈ s.frames, g.Owns f.block
  split : ∀ f ∈ s.frames, f.passed.reverse ++ f.ahead = g.targets f.block
  linked : s.frames.IsChain fun above below => below.passed.head? = some above.block

def Seen (g : Graph) (s : Search) : Prop := ∀ u v, s.Passed g u v → ¬ s.Fresh v

theorem invariant_initial (g : Graph) : Invariant g (initial g) := by
  constructor <;> simp [initial, Array.getElem?_replicate]

theorem seen_initial (g : Graph) : Seen g (initial g) := by
  rintro u v (⟨f, hf, -⟩ | ⟨finished, -⟩)
  · cases hf
  · simp [Finished, initial, Array.getElem?_replicate] at finished

theorem Invariant.lt_size (h : Invariant g s) (hb : g.Owns b) : b.index < s.marks.size :=
  h.marks_size ▸ hb.2

theorem Invariant.mem_path (h : Invariant g s) :
    b ∈ s.path.toList ↔ ∃ f ∈ s.frames, f.block = b := by
  rw [h.path_eq, List.mem_reverse, List.mem_map]

theorem Invariant.owned_of_mem_path (h : Invariant g s) (hb : b ∈ s.path.toList) : g.Owns b := by
  obtain ⟨f, hf, rfl⟩ := h.mem_path.mp hb
  exact h.owned f hf

theorem Invariant.mem_path_iff_active (h : Invariant g s) (hb : g.Owns b) :
    b ∈ s.path.toList ↔ ∃ position, s.marks[b.index]? = some (.active position) := by
  simp only [h.active_iff, ← hb.eq_handle, List.mem_iff_getElem?, Array.getElem?_toList]

theorem toList_extract_path (s : Search) (position : Nat) :
    (s.path.extract position).toList = s.path.toList.drop position := by
  rw [Array.toList_extract, List.extract_eq_take_drop]
  exact List.take_of_length_le (by simp)

/-- The position that a mark holds is that of the one occurrence of its block on the path. -/
theorem Invariant.suffix_of_active (h : Invariant g s) (hb : g.Owns b) {position : Nat}
    (active : s.marks[b.index]? = some (.active position)) :
    (s.path.extract position).toList = s.path.toList.drop (s.path.toList.idxOf b) := by
  have placed : s.path.toList[position]? = some b := by
    rw [Array.getElem?_toList, hb.eq_handle]
    exact (h.active_iff b.index position).mp active
  have first : s.path.toList.idxOf b = position := by
    obtain ⟨inside, at_position⟩ := List.getElem?_eq_some_iff.mp placed
    rw [← at_position]
    exact h.path_nodup.idxOf_getElem position inside
  rw [first, toList_extract_path]

theorem Invariant.not_mem_path_of_fresh (h : Invariant g s) (hb : s.Fresh b) :
    b ∉ s.path.toList := by
  intro mem
  obtain ⟨position, active⟩ := (h.mem_path_iff_active (h.owned_of_mem_path mem)).mp mem
  rw [Fresh, active] at hb
  cases hb

theorem Invariant.nodup_concat (h : Invariant g s) (hb : s.Fresh b) :
    (s.path.toList ++ [b]).Nodup := by
  have off := h.not_mem_path_of_fresh hb
  rw [List.nodup_append]
  refine ⟨h.path_nodup, by simp, ?_⟩
  rintro c hc d hd rfl
  obtain rfl := List.mem_singleton.mp hd
  exact off hc

theorem Invariant.not_mem_path_of_finished (h : Invariant g s) (hb : s.Finished b) :
    b ∉ s.path.toList := by
  intro mem
  obtain ⟨position, active⟩ := (h.mem_path_iff_active (h.owned_of_mem_path mem)).mp mem
  rw [Finished, active] at hb
  cases hb

theorem Invariant.not_fresh_of_top (h : Invariant g s)
    (top : s.frames = ⟨b, passed, ahead⟩ :: below) : ¬ s.Fresh b :=
  fun fresh => h.not_mem_path_of_fresh fresh (h.mem_path.mpr ⟨_, top ▸ List.mem_cons_self, rfl⟩)

theorem Invariant.not_fresh_of_passed (h : Invariant g s) (hp : s.Passed g u v) : ¬ s.Fresh u := by
  rcases hp with ⟨f, hf, rfl, -⟩ | ⟨finished, -⟩
  · exact fun fresh => h.not_mem_path_of_fresh fresh (h.mem_path.mpr ⟨f, hf, rfl⟩)
  · exact fun fresh => fresh.not_finished finished

theorem Invariant.mark_cases (h : Invariant g s) (hb : g.Owns b) :
    s.Fresh b ∨ (∃ position, s.marks[b.index]? = some (.active position)) ∨ s.Finished b := by
  have inside := h.lt_size hb
  rw [Fresh, Finished, Array.getElem?_eq_getElem inside]
  cases s.marks[b.index] with
  | fresh => exact .inl rfl
  | active position => exact .inr (.inl ⟨position, rfl⟩)
  | finished => exact .inr (.inr rfl)

theorem Invariant.finished_of_not_fresh (h : Invariant g s) (hb : g.Owns b) (entered : ¬ s.Fresh b)
    (inactive : b ∉ s.path.toList) : s.Finished b := by
  rw [h.mem_path_iff_active hb] at inactive
  rcases h.mark_cases hb with fresh | active | finished
  · exact absurd fresh entered
  · exact absurd active inactive
  · exact finished

theorem Invariant.path_of_idle (h : Invariant g s) (idle : s.frames = []) : s.path.toList = [] := by
  rw [h.path_eq, idle]
  rfl

theorem Invariant.finished_of_idle (h : Invariant g s) (idle : s.frames = []) (hb : g.Owns b)
    (entered : ¬ s.Fresh b) : s.Finished b :=
  h.finished_of_not_fresh hb entered (h.path_of_idle idle ▸ List.not_mem_nil)

theorem Invariant.path_eq_of_top (h : Invariant g s)
    (top : s.frames = ⟨b, passed, ahead⟩ :: below) :
    s.path.toList = (below.map (·.block)).reverse ++ [b] := by
  rw [h.path_eq, top, List.map_cons, List.reverse_cons]

theorem Invariant.owned_of_top (h : Invariant g s) (top : s.frames = ⟨b, passed, ahead⟩ :: below) :
    g.Owns b :=
  h.owned ⟨b, passed, ahead⟩ (top ▸ List.mem_cons_self)

theorem Invariant.path_leave (h : Invariant g s)
    (top : s.frames = ⟨b, passed, ahead⟩ :: below) :
    (s.leave b below).path.toList = (below.map (·.block)).reverse := by
  rw [Search.leave, Array.toList_pop, h.path_eq_of_top top, List.dropLast_concat]

theorem Invariant.path_eq_leave (h : Invariant g s)
    (top : s.frames = ⟨b, passed, ahead⟩ :: below) :
    s.path.toList = (s.leave b below).path.toList ++ [b] := by
  rw [h.path_leave top, h.path_eq_of_top top]

theorem Invariant.not_mem_path_leave (h : Invariant g s)
    (top : s.frames = ⟨b, passed, ahead⟩ :: below) : b ∉ (s.leave b below).path.toList := by
  have nodup := h.path_nodup
  rw [h.path_eq_leave top, List.nodup_append] at nodup
  exact fun mem => nodup.2.2 b mem b List.mem_cons_self rfl

theorem Invariant.targets_of_top (h : Invariant g s)
    (top : s.frames = ⟨b, passed, ahead⟩ :: below) : passed.reverse ++ ahead = g.targets b :=
  h.split ⟨b, passed, ahead⟩ (top ▸ List.mem_cons_self)

theorem Invariant.pass (h : Invariant g s) {next : BlockId}
    (top : s.frames = ⟨b, passed, next :: ahead⟩ :: below) :
    Invariant g (s.withFrames (⟨b, next :: passed, ahead⟩ :: below)) := by
  obtain ⟨marks_size, path_eq, path_nodup, active_iff, owned, split, linked⟩ := h
  rw [top] at path_eq owned split linked
  refine ⟨marks_size, path_eq, path_nodup, active_iff, ?_, ?_, ?_⟩
  · intro f hf
    rcases List.mem_cons.mp hf with rfl | hf
    · exact owned ⟨b, passed, next :: ahead⟩ List.mem_cons_self
    · exact owned f (List.mem_cons_of_mem _ hf)
  · intro f hf
    rcases List.mem_cons.mp hf with rfl | hf
    · simpa using split ⟨b, passed, next :: ahead⟩ List.mem_cons_self
    · exact split f (List.mem_cons_of_mem _ hf)
  · rw [List.isChain_cons] at linked
    exact List.isChain_cons.mpr linked

theorem Invariant.active_iff_enter (h : Invariant g s) (hb : g.Owns b) (fresh : s.Fresh b)
    (i position : Nat) : (s.enter g b).marks[i]? = some (.active position) ↔
      (s.enter g b).path[position]? = some (g.handle i) := by
  by_cases hi : b.index = i
  · subst hi
    have unplaced : ¬ s.path[position]? = some (g.handle b.index) := by
      rw [← h.active_iff, fresh]
      simp
    simp only [Search.enter, Array.getElem?_setIfInBounds_self_of_lt fresh.lt_size,
      Array.getElem?_push, Option.some.injEq, Mark.active.injEq]
    constructor
    · rintro rfl
      rw [if_pos rfl, ← hb.eq_handle]
    · intro placed
      split at placed
      next same => exact same.symm
      · exact absurd placed unplaced
  · have apart : b ≠ g.handle i := fun same => hi (same ▸ rfl)
    simp only [Search.enter, Array.getElem?_setIfInBounds_ne hi, Array.getElem?_push, h.active_iff]
    split
    next last => simp [last, apart]
    · rfl

theorem Invariant.enter (h : Invariant g s) (hb : g.Owns b) (fresh : s.Fresh b)
    (link : ∀ f ∈ s.frames.head?, f.passed.head? = some b) : Invariant g (s.enter g b) := by
  refine ⟨?_, ?_, ?_, h.active_iff_enter hb fresh, ?_, ?_, List.isChain_cons.mpr ⟨link, h.linked⟩⟩
  · rw [← h.marks_size, Search.enter, Array.size_setIfInBounds]
  · rw [path_enter, h.path_eq, Search.enter, List.map_cons, List.reverse_cons]
  · rw [path_enter]
    exact h.nodup_concat fresh
  · intro f hf
    rcases List.mem_cons.mp hf with rfl | hf
    · exact hb
    · exact h.owned f hf
  · intro f hf
    rcases List.mem_cons.mp hf with rfl | hf
    · rfl
    · exact h.split f hf

theorem Invariant.active_iff_leave (h : Invariant g s)
    (top : s.frames = ⟨b, passed, ahead⟩ :: below) (i position : Nat) :
    (s.leave b below).marks[i]? = some (.active position) ↔
      (s.leave b below).path[position]? = some (g.handle i) := by
  have hb := h.owned_of_top top
  by_cases hi : b.index = i
  · subst hi
    have gone : (s.leave b below).path[position]? ≠ some (g.handle b.index) := by
      rw [← hb.eq_handle]
      intro placed
      have mem := Array.mem_of_getElem? placed
      exact h.not_mem_path_leave top (Array.mem_toList_iff.mpr mem)
    simp only [gone, iff_false]
    simp [Search.leave, h.lt_size hb]
  · have path := h.path_eq_of_top top
    have size : s.path.size = below.length + 1 := by simpa using congrArg List.length path
    have last : s.path[below.length]? = some b := by
      rw [← Array.getElem?_toList, path, List.getElem?_append_right (by simp)]
      simp
    have apart : b ≠ g.handle i := fun same => hi (same ▸ rfl)
    simp only [Search.leave, Array.getElem?_setIfInBounds_ne hi, h.active_iff, Array.getElem?_pop]
    split
    · rfl
    next short =>
      simp only [reduceCtorEq, iff_false]
      intro placed
      have within : position < s.path.size := (Array.getElem?_eq_some_iff.mp placed).1
      have at_last : position = below.length := by omega
      rw [at_last, last] at placed
      exact apart (Option.some.inj placed)

theorem Invariant.leave (h : Invariant g s) (top : s.frames = ⟨b, passed, ahead⟩ :: below) :
    Invariant g (s.leave b below) := by
  have nodup := h.path_nodup
  have linked := h.linked
  rw [h.path_eq_leave top, List.nodup_append] at nodup
  rw [top] at linked
  refine ⟨?_, h.path_leave top, nodup.1, h.active_iff_leave top, ?_, ?_, linked.tail⟩
  · rw [← h.marks_size, Search.leave, Array.size_setIfInBounds]
  · intro f hf
    exact h.owned f (top ▸ List.mem_cons_of_mem _ hf)
  · intro f hf
    exact h.split f (top ▸ List.mem_cons_of_mem _ hf)

theorem Invariant.adjacent_of_passed (h : Invariant g s) (hp : s.Passed g u v) :
    g.Adjacent u v := by
  rcases hp with ⟨f, hf, rfl, hv⟩ | ⟨-, adjacent⟩
  · rw [Graph.adjacent_iff, ← h.split f hf]
    exact List.mem_append_left _ (List.mem_reverse.mpr hv)
  · exact adjacent

theorem Invariant.next_adjacent (h : Invariant g s) {next : BlockId}
    (top : s.frames = ⟨b, passed, next :: ahead⟩ :: below) : g.Adjacent b next := by
  rw [Graph.adjacent_iff, ← h.targets_of_top top]
  exact List.mem_append_right _ List.mem_cons_self

theorem Invariant.move (hg : g.Reachable) (h : Invariant g s) (m : Move g s t) :
    Invariant g t := by
  cases m with
  | root idle owned fresh _ =>
    refine h.enter owned fresh ?_
    simp [idle]
  | descend top fresh =>
    refine (h.pass top).enter ((h.next_adjacent top).owns_right hg) fresh ?_
    rintro f ⟨⟩
    rfl
  | close top active =>
    obtain ⟨marks_size, path_eq, path_nodup, active_iff, owned, split, linked⟩ := h.pass top
    exact ⟨marks_size, path_eq, path_nodup, active_iff, owned, split, linked⟩
  | skip top _ => exact h.pass top
  | leave top => exact h.leave top

theorem Invariant.fresh_of_move (h : Invariant g s) (m : Move g s t) (hb : t.Fresh b) :
    s.Fresh b := by
  cases m with
  | root _ _ fresh _ => exact ((fresh_enter fresh).mp hb).1
  | descend _ fresh => exact ((fresh_enter (fresh_withFrames.mpr fresh)).mp hb).1
  | close => exact hb
  | skip => exact hb
  | leave top => exact (fresh_leave (h.not_fresh_of_top top)).mp hb

theorem Move.passed_or_atEdge (h : Invariant g s) (m : Move g s t) (hp : t.Passed g u v) :
    s.Passed g u v ∨ s.AtEdge u v := by
  -- a frame that passed `next` has passed nothing else since
  have of_frames {b next : BlockId} {passed ahead : List BlockId} {below : List Frame}
      (top : s.frames = ⟨b, passed, next :: ahead⟩ :: below)
      (hf : ∃ f ∈ (⟨b, next :: passed, ahead⟩ :: below : List Frame), f.block = u ∧ v ∈ f.passed) :
      s.Passed g u v ∨ s.AtEdge u v := by
    obtain ⟨f, hf, rfl, hv⟩ := hf
    rcases List.mem_cons.mp hf with rfl | hf
    · rcases List.mem_cons.mp hv with rfl | hv
      · exact .inr ⟨_, _, _, top⟩
      · exact .inl (.inl ⟨⟨b, passed, next :: ahead⟩, top ▸ List.mem_cons_self, rfl, hv⟩)
    · exact .inl (.inl ⟨f, top ▸ List.mem_cons_of_mem _ hf, rfl, hv⟩)
  cases m with
  | root idle owned fresh _ =>
    rcases hp with ⟨f, hf, rfl, hv⟩ | ⟨finished, adjacent⟩
    · simp only [Search.enter, idle, List.mem_singleton] at hf
      subst hf
      cases hv
    · exact .inl (.inr ⟨(finished_enter fresh).mp finished, adjacent⟩)
  | descend top fresh =>
    rcases hp with ⟨f, hf, rfl, hv⟩ | ⟨finished, adjacent⟩
    · rcases List.mem_cons.mp hf with rfl | hf
      · cases hv
      · exact of_frames top ⟨f, hf, rfl, hv⟩
    · have before := (finished_enter (fresh_withFrames.mpr fresh)).mp finished
      exact .inl (.inr ⟨before, adjacent⟩)
  | close top _ =>
    rcases hp with hf | ⟨finished, adjacent⟩
    · exact of_frames top hf
    · exact .inl (.inr ⟨finished, adjacent⟩)
  | skip top _ =>
    rcases hp with hf | ⟨finished, adjacent⟩
    · exact of_frames top hf
    · exact .inl (.inr ⟨finished, adjacent⟩)
  | @leave b passed below top =>
    have hb := h.owned_of_top top
    have inside := h.lt_size hb
    rcases hp with ⟨f, hf, rfl, hv⟩ | ⟨finished, adjacent⟩
    · exact .inl (.inl ⟨f, top ▸ List.mem_cons_of_mem _ hf, rfl, hv⟩)
    · rcases (finished_leave inside).mp finished with finished | same
      · exact .inl (.inr ⟨finished, adjacent⟩)
      · obtain rfl : u = b := adjacent.owns_left.eq_of_index hb same
        -- the frame that is left has passed all its edges
        rw [Graph.adjacent_iff, ← h.targets_of_top top, List.append_nil,
          List.mem_reverse] at adjacent
        exact .inl (.inl ⟨⟨u, passed, []⟩, top ▸ List.mem_cons_self, rfl, adjacent⟩)

theorem Invariant.passed_of_move (h : Invariant g s) (m : Move g s t) (hp : s.Passed g u v) :
    t.Passed g u v := by
  have of_frames {b next : BlockId} {passed ahead : List BlockId} {below : List Frame}
      (top : s.frames = ⟨b, passed, next :: ahead⟩ :: below)
      (hf : ∃ f ∈ s.frames, f.block = u ∧ v ∈ f.passed) :
      ∃ f ∈ (⟨b, next :: passed, ahead⟩ :: below : List Frame), f.block = u ∧ v ∈ f.passed := by
    obtain ⟨f, hf, rfl, hv⟩ := hf
    rw [top] at hf
    rcases List.mem_cons.mp hf with rfl | hf
    · exact ⟨_, List.mem_cons_self, rfl, List.mem_cons_of_mem _ hv⟩
    · exact ⟨f, List.mem_cons_of_mem _ hf, rfl, hv⟩
  cases m with
  | root idle owned fresh _ =>
    rcases hp with ⟨f, hf, -⟩ | ⟨finished, adjacent⟩
    · simp [idle] at hf
    · exact .inr ⟨(finished_enter fresh).mpr finished, adjacent⟩
  | descend top fresh =>
    rcases hp with hf | ⟨finished, adjacent⟩
    · obtain ⟨f, hf, same, hv⟩ := of_frames top hf
      exact .inl ⟨f, List.mem_cons_of_mem _ hf, same, hv⟩
    · exact .inr ⟨(finished_enter (fresh_withFrames.mpr fresh)).mpr finished, adjacent⟩
  | close top _ =>
    rcases hp with hf | finished
    · exact .inl (of_frames top hf)
    · exact .inr finished
  | skip top _ =>
    rcases hp with hf | finished
    · exact .inl (of_frames top hf)
    · exact .inr finished
  | @leave b passed below top =>
    have hb := h.owned_of_top top
    have inside := h.lt_size hb
    have adjacent := h.adjacent_of_passed hp
    rcases hp with ⟨f, hf, rfl, hv⟩ | ⟨finished, -⟩
    · rw [top] at hf
      rcases List.mem_cons.mp hf with rfl | hf
      · exact .inr ⟨(finished_leave inside).mpr (.inr rfl), adjacent⟩
      · exact .inl ⟨f, hf, rfl, hv⟩
    · exact .inr ⟨(finished_leave inside).mpr (.inl finished), adjacent⟩

theorem Move.not_fresh_of_atEdge (m : Move g s t) (edge : s.AtEdge u v) : ¬ t.Fresh v := by
  cases m with
  | root idle =>
    obtain ⟨_, _, _, top⟩ := edge
    simp [idle] at top
  | descend top fresh =>
    obtain ⟨rfl, rfl⟩ := edge.eq_of_top top
    exact not_fresh_enter (fresh_withFrames.mpr fresh)
  | close top active =>
    obtain ⟨rfl, rfl⟩ := edge.eq_of_top top
    intro fresh
    rw [Fresh, record, withFrames, active] at fresh
    cases fresh
  | skip top finished =>
    obtain ⟨rfl, rfl⟩ := edge.eq_of_top top
    exact fun fresh => (fresh_withFrames.mp fresh).not_finished finished
  | leave top =>
    obtain ⟨_, _, _, at_top⟩ := edge
    simp [top] at at_top

theorem Seen.move (hs : Seen g s) (h : Invariant g s) (m : Move g s t) : Seen g t := by
  intro u v hp
  rcases m.passed_or_atEdge h hp with before | edge
  · exact fun fresh => hs u v before (h.fresh_of_move m fresh)
  · exact m.not_fresh_of_atEdge edge

end Search
end FlowLoops
