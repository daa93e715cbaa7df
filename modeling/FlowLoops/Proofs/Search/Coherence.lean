import FlowLoops.Proofs.Search.Iteration

/-! The accounts of the active path at the head of the loop. A frame is read as the successors of
its block with a cursor among them. Then path, marks, stack and cursors tell the same, and what is
cut out of the path for a loop begins and ends where its edge does. -/

namespace FlowLoops

namespace Frame
variable {f : Frame} {v : BlockId}

def successors (f : Frame) : List BlockId := f.passed.reverse ++ f.ahead

def cursor (f : Frame) : Nat := f.passed.length

theorem cursor_le (f : Frame) : f.cursor ≤ f.successors.length := by
  rw [successors, List.length_append, List.length_reverse]
  exact Nat.le_add_right f.passed.length f.ahead.length

theorem getElem?_cursor (f : Frame) : f.successors[f.cursor]? = f.ahead.head? := by
  have at_end : f.passed.reverse.length = f.cursor := List.length_reverse
  rw [successors, List.getElem?_append_right at_end.le, at_end, Nat.sub_self,
    List.head?_eq_getElem?]

theorem getElem?_of_lt_cursor {i : Nat} (lt : i < f.cursor) :
    f.successors[i]? = f.passed.reverse[i]? := by
  rw [successors, List.getElem?_append_left]
  rwa [List.length_reverse]

theorem mem_passed : v ∈ f.passed ↔ ∃ i < f.cursor, f.successors[i]? = some v := by
  rw [← List.mem_reverse, List.mem_iff_getElem?]
  constructor
  · rintro ⟨i, at_i⟩
    have lt := (List.getElem?_eq_some_iff.mp at_i).1
    rw [List.length_reverse] at lt
    exact ⟨i, lt, (getElem?_of_lt_cursor lt).trans at_i⟩
  · rintro ⟨i, lt, at_i⟩
    exact ⟨i, (getElem?_of_lt_cursor lt).symm.trans at_i⟩

theorem head?_passed : f.passed.head? = some v ↔
    ∃ i, f.cursor = i + 1 ∧ f.successors[i]? = some v := by
  obtain ⟨b, passed, ahead⟩ := f
  cases passed with
  | nil => simp [cursor]
  | cons last earlier => simp [cursor, successors]

end Frame

namespace Search
variable {g : Graph} {s t : Search} {b : BlockId} {roots : List BlockId} {heads : List Search}

structure Coherent (g : Graph) (s : Search) : Prop where
  marks_size : s.marks.size = g.blockCount
  path_eq : s.path.toList = (s.frames.map (·.block)).reverse
  path_nodup : s.path.toList.Nodup
  active_iff : ∀ b, g.Owns b → ∀ position : Nat,
    s.marks[b.index]? = some (.active position) ↔ s.path[position]? = some b
  successors_eq : ∀ f ∈ s.frames, g.successors f.block = .ok f.successors
  cursor_le : ∀ f ∈ s.frames, f.cursor ≤ f.successors.length
  linked : s.frames.IsChain fun above below =>
    ∃ i, below.cursor = i + 1 ∧ below.successors[i]? = some above.block
  before_cursor : ∀ f ∈ s.frames, ∀ i < f.cursor, ∀ v, f.successors[i]? = some v → ¬ s.Fresh v
  after_finished : ∀ b, g.Owns b → s.Finished b → ∀ v, g.Adjacent b v → ¬ s.Fresh v

theorem Coherent.owned (h : Coherent g s) {f : Frame} (hf : f ∈ s.frames) : g.Owns f.block := by
  obtain ⟨-, -, owned, -⟩ := Graph.successors_eq_ok.mp (h.successors_eq f hf)
  exact owned

theorem Coherent.active_iff_handle (h : Coherent g s) (i position : Nat) :
    s.marks[i]? = some (.active position) ↔ s.path[position]? = some (g.handle i) := by
  by_cases inside : i < g.blockCount
  · exact h.active_iff (g.handle i) (Graph.owns_handle.mpr inside) position
  · -- neither a mark nor a block of the path has such an index
    have unmarked : s.marks[i]? = none :=
      Array.getElem?_eq_none (h.marks_size.symm ▸ Nat.le_of_not_lt inside)
    simp only [unmarked, reduceCtorEq, false_iff]
    intro placed
    have mem := Array.mem_toList_iff.mpr (Array.mem_of_getElem? placed)
    rw [h.path_eq, List.mem_reverse, List.mem_map] at mem
    obtain ⟨f, hf, same⟩ := mem
    exact inside (Graph.owns_handle.mp (same ▸ h.owned hf))

theorem coherent_iff : Coherent g s ↔ Invariant g s ∧ Seen g s := by
  constructor
  · intro h
    refine ⟨⟨h.marks_size, h.path_eq, h.path_nodup, h.active_iff_handle, fun f hf => h.owned hf,
      fun f hf => ?_, ?_⟩, ?_⟩
    · have listed := h.successors_eq f hf
      rw [Graph.successors_eq_targets (h.owned hf)] at listed
      exact (Except.ok.inj listed).symm
    · exact h.linked.imp fun above below => Frame.head?_passed.mpr
    · rintro u v (⟨f, hf, rfl, hv⟩ | ⟨finished, adjacent⟩)
      · obtain ⟨i, lt, at_i⟩ := Frame.mem_passed.mp hv
        exact h.before_cursor f hf i lt v at_i
      · exact h.after_finished u adjacent.owns_left finished v adjacent
  · rintro ⟨h, seen⟩
    refine ⟨h.marks_size, h.path_eq, h.path_nodup, fun b hb position => ?_, fun f hf => ?_,
      fun f _ => f.cursor_le, ?_, fun f hf i lt v at_i => ?_, fun b hb finished v adjacent => ?_⟩
    · rw [h.active_iff, ← hb.eq_handle]
    · rw [Graph.successors_eq_targets (h.owned f hf), ← h.split f hf, Frame.successors]
    · exact h.linked.imp fun above below => Frame.head?_passed.mp
    · exact seen f.block v (.inl ⟨f, hf, rfl, Frame.mem_passed.mpr ⟨i, lt, at_i⟩⟩)
    · exact seen b v (.inr ⟨finished, adjacent⟩)

/-- The states at the head of the loop, and the one before the first root. Roots are entered in
whatever order. -/
inductive AtHead (g : Graph) : Search → Prop
  | start : AtHead g (initial g)
  | root {s t : Search} {b : BlockId} (before : AtHead g s) (idle : s.frames = [])
    (owned : g.Owns b) (fresh : s.Fresh b) (entered : s.descend g b = .ok t) : AtHead g t
  | iteration {s t : Search} (before : AtHead g s) (busy : s.frames ≠ [])
    (stepped : s.step g = .ok t) : AtHead g t

section AtHead

theorem Iterates.atHead (h : Iterates g s heads t) (first : AtHead g s) :
    AtHead g t ∧ ∀ head ∈ heads, AtHead g head := by
  induction h with
  | stop => exact ⟨first, nofun⟩
  | next busy stepped _ ih =>
    obtain ⟨ended, others⟩ := ih (first.iteration busy stepped)
    exact ⟨ended, List.forall_mem_cons.mpr ⟨first, others⟩⟩

theorem Rounds.atHead {rounds : List Round} (h : Rounds g s roots rounds t)
    (owned : ∀ b ∈ roots, g.Owns b) (first : AtHead g s) (idle : s.frames = []) :
    AtHead g t ∧ ∀ r ∈ rounds, ∀ head ∈ r.heads, AtHead g head := by
  induction h with
  | stop => exact ⟨first, nofun⟩
  | visited _ _ _ ih => exact ih (List.forall_mem_cons.mp owned).2 first idle
  | root fresh entered iterates _ ih =>
    obtain ⟨owned, others⟩ := List.forall_mem_cons.mp owned
    obtain ⟨ended, heads⟩ := iterates.atHead (first.root idle owned fresh entered)
    obtain ⟨all, rest⟩ := ih others ended iterates.idle
    exact ⟨all, List.forall_mem_cons.mpr ⟨heads, rest⟩⟩

end AtHead

section Steps

theorem coherent_initial (g : Graph) : Coherent g (initial g) :=
  coherent_iff.mpr ⟨invariant_initial g, seen_initial g⟩

theorem Coherent.exists_descend (h : Coherent g s) (idle : s.frames = []) (owned : g.Owns b)
    (fresh : s.Fresh b) : ∃ t, s.descend g b = .ok t ∧ Coherent g t := by
  obtain ⟨invariant, seen⟩ := coherent_iff.mp h
  refine ⟨s.enter g b, descend_eq_ok invariant owned, coherent_iff.mpr ⟨?_, ?_⟩⟩
  · exact invariant.enter_root idle owned fresh
  · exact seen.enter_root idle fresh

theorem Coherent.exists_step (hg : g.Reachable) (h : Coherent g s) (busy : s.frames ≠ []) :
    ∃ t, s.step g = .ok t ∧ Coherent g t := by
  obtain ⟨invariant, seen⟩ := coherent_iff.mp h
  obtain ⟨t, stepped, m⟩ := exists_move hg invariant busy
  exact ⟨t, stepped, coherent_iff.mpr ⟨invariant.move hg m, seen.move invariant m⟩⟩

theorem AtHead.coherent (hg : g.Reachable) (h : AtHead g s) : Coherent g s := by
  induction h with
  | start => exact coherent_initial g
  | root _ idle owned fresh entered ih =>
    obtain ⟨t, entered', coherent⟩ := ih.exists_descend idle owned fresh
    exact Except.ok.inj (entered'.symm.trans entered) ▸ coherent
  | iteration _ busy stepped ih =>
    obtain ⟨t, stepped', coherent⟩ := ih.exists_step hg busy
    exact Except.ok.inj (stepped'.symm.trans stepped) ▸ coherent

end Steps

def slice (s : Search) (position : Nat) : List BlockId := (s.path.extract position).toList

theorem Invariant.slice_ends (hg : g.Reachable) (h : Invariant g s) {next : BlockId}
    {passed ahead : List BlockId} {below : List Frame}
    (top : s.frames = ⟨b, passed, next :: ahead⟩ :: below) {position : Nat}
    (active : s.marks[next.index]? = some (.active position)) :
    position < s.path.size ∧ (s.slice position).head? = some next ∧
      (s.slice position).getLast? = some b := by
  have owned : g.Owns next := (h.next_adjacent top).owns_right hg
  have placed := (h.active_iff next.index position).mp active
  rw [← owned.eq_handle] at placed
  have within : position < s.path.size := (Array.getElem?_eq_some_iff.mp placed).1
  refine ⟨within, ?_, ?_⟩
  · rw [slice, toList_extract_path, List.head?_drop, Array.getElem?_toList, placed]
  · have short : ¬ s.path.toList.length ≤ position := Nat.not_le.mpr within
    rw [slice, toList_extract_path, List.getLast?_drop, if_neg short, h.path_eq_of_top top,
      List.getLast?_concat]

/-- Every head of the loop is coherent, whatever roots the search has come through, and from a
coherent state the loop goes on to another one. When the next edge of the top frame leads into the
path, what is cut out of the path is in range, begins with the target of the edge and ends with its
source, and it makes the loop. -/
theorem heads_are_coherent (hg : g.Reachable) :
    (∀ roots rounds t, (∀ b ∈ roots, g.Owns b) → Rounds g (initial g) roots rounds t →
      AtHead g t ∧ ∀ r ∈ rounds, ∀ head ∈ r.heads, AtHead g head) ∧
    (∀ s, AtHead g s → Coherent g s) ∧
    ∀ s, Coherent g s → (s.frames ≠ [] → ∃ t, s.step g = .ok t ∧ Coherent g t) ∧
      ∀ f ∈ s.frames.head?, ∀ next ∈ f.successors[f.cursor]?, ∀ position,
        s.marks[next.index]? = some (.active position) →
          position < s.path.size ∧ (s.slice position).head? = some next ∧
          (s.slice position).getLast? = some f.block ∧
          ∃ t, s.step g = .ok t ∧ t.loops = s.loops.push ⟨s.slice position ++ [next]⟩ := by
  refine ⟨fun roots rounds t owned search => search.atHead owned .start rfl,
    fun s head => head.coherent hg, fun s coherent => ⟨coherent.exists_step hg, ?_⟩⟩
  obtain ⟨h, -⟩ := coherent_iff.mp coherent
  intro f hf next hn position active
  obtain ⟨below, top⟩ := List.head?_eq_some_iff.mp hf
  obtain ⟨b, passed, ahead⟩ := f
  rw [Option.mem_def, Frame.getElem?_cursor] at hn
  obtain ⟨ahead, rfl⟩ := List.head?_eq_some_iff.mp hn
  obtain ⟨within, first, last⟩ := h.slice_ends hg top active
  exact ⟨within, first, last, _, step_close h top active, rfl⟩

def threeDeep : Search :=
  ⟨#[.active 0, .active 1, .active 2, .fresh], #[⟨0, 0⟩, ⟨0, 1⟩, ⟨0, 2⟩],
    [⟨⟨0, 2⟩, [], [⟨0, 1⟩, ⟨0, 2⟩]⟩, ⟨⟨0, 1⟩, [⟨0, 2⟩], [⟨0, 3⟩, ⟨0, 2⟩]⟩,
      ⟨⟨0, 0⟩, [⟨0, 1⟩], []⟩], #[], #[]⟩

theorem atHead_threeDeep : AtHead Graph.nested threeDeep := by
  have one : AtHead Graph.nested ⟨#[.active 0, .fresh, .fresh, .fresh], #[⟨0, 0⟩],
      [⟨⟨0, 0⟩, [], [⟨0, 1⟩]⟩], #[], #[]⟩ :=
    .root (b := ⟨0, 0⟩) .start rfl (by decide) rfl (by cbv)
  have two : AtHead Graph.nested ⟨#[.active 0, .active 1, .fresh, .fresh], #[⟨0, 0⟩, ⟨0, 1⟩],
      [⟨⟨0, 1⟩, [], [⟨0, 2⟩, ⟨0, 3⟩, ⟨0, 2⟩]⟩, ⟨⟨0, 0⟩, [⟨0, 1⟩], []⟩], #[], #[]⟩ :=
    one.iteration (List.cons_ne_nil _ _) (by cbv)
  exact two.iteration (List.cons_ne_nil _ _) (by cbv)

theorem coherent_threeDeep : Graph.nested.Reachable ∧ AtHead Graph.nested threeDeep ∧
    Coherent Graph.nested threeDeep ∧ 1 < threeDeep.path.size ∧
    (threeDeep.slice 1).head? = some ⟨0, 1⟩ ∧ (threeDeep.slice 1).getLast? = some ⟨0, 2⟩ ∧
    (∃ t, threeDeep.step Graph.nested = .ok t ∧ t.loops = #[⟨[⟨0, 1⟩, ⟨0, 2⟩, ⟨0, 1⟩]⟩]) ∧
    ∃ rounds t, Rounds Graph.nested (initial Graph.nested) [⟨0, 3⟩, ⟨0, 1⟩] rounds t ∧
      AtHead Graph.nested t := by
  have hg := Graph.reachable_nested
  obtain ⟨passes, heads, coherents⟩ := heads_are_coherent hg
  have coherent := heads threeDeep atHead_threeDeep
  obtain ⟨-, closes⟩ := coherents threeDeep coherent
  obtain ⟨within, first, last, t, stepped, loops⟩ := closes _ rfl ⟨0, 1⟩ rfl 1 rfl
  have owned : ∀ b ∈ [⟨0, 3⟩, ⟨0, 1⟩], Graph.nested.Owns b := by decide
  obtain ⟨rounds, u, search⟩ := exists_rounds hg (invariant_initial _) rfl owned
  exact ⟨hg, atHead_threeDeep, coherent, within, first, last, ⟨t, stepped, loops⟩,
    rounds, u, search, (passes _ rounds u owned search).1⟩

end Search
end FlowLoops
