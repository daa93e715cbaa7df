import FlowLoops.Proofs.Search.Iteration
import FlowLoops.Proofs.Search.Way

/-! What the exploration from a root adds to a search. It enters only what the root reaches, and it
ends only when every edge out of what it entered has been looked at. Blocks finished before cut off
nothing, for what lies behind them was finished with them. -/

namespace FlowLoops
namespace Search
variable {g : Graph} {s t u : Search} {b root : BlockId} {taken roots : List BlockId}
  {heads : List Search}

/-- The search between two roots: nothing is active, and finished is what the roots taken so far
reach. -/
structure Resting (g : Graph) (s : Search) (taken : List BlockId) : Prop where
  marks_size : s.marks.size = g.blockCount
  frames : s.frames = []
  path : s.path = #[]
  inactive : ∀ i position : Nat, ¬ s.marks[i]? = some (.active position)
  finished_iff : ∀ b, g.Owns b → (s.Finished b ↔ ∃ r ∈ taken, g.Reaches r b)

/-- What the exploration from a root leaves behind: all that the root reaches is finished too, and
the new loops lie in what was unvisited before. -/
structure Explored (g : Graph) (s : Search) (root : BlockId) (t : Search) : Prop where
  finished_iff : ∀ b, g.Owns b → (t.Finished b ↔ s.Finished b ∨ g.Reaches root b)
  loops : ∃ found, t.loops.toList = s.loops.toList ++ found ∧
    ∀ l ∈ found, ∀ b ∈ l.blocks, g.Owns b ∧ s.Fresh b ∧ t.Finished b

structure Exploring (g : Graph) (s : Search) (root : BlockId) (t : Search) : Prop where
  seen : Seen g t
  begun : ¬ t.Fresh root
  kept : ∀ b, s.Finished b → t.Finished b
  within : ∀ b, g.Owns b → ¬ t.Fresh b → s.Finished b ∨ g.Reaches root b
  loops : ∃ found, t.loops.toList = s.loops.toList ++ found ∧
    ∀ l ∈ found, ∀ b ∈ l.blocks, g.Owns b ∧ s.Fresh b ∧ ¬ t.Fresh b

section Resting

theorem resting_initial (g : Graph) : Resting g (initial g) [] := by
  constructor <;> simp [initial, Finished, Array.getElem?_replicate]

theorem Resting.invariant (h : Resting g s taken) : Invariant g s := by
  obtain ⟨marks_size, frames, path, inactive, -⟩ := h
  constructor <;> simp [marks_size, frames, path, inactive]

theorem Resting.seen (hg : g.Reachable) (h : Resting g s taken) : Seen g s := by
  rintro u v (⟨f, hf, -⟩ | ⟨finished, adjacent⟩)
  · rw [h.frames] at hf
    cases hf
  · obtain ⟨r, hr, reaches⟩ := (h.finished_iff u adjacent.owns_left).mp finished
    have further := (h.finished_iff v (adjacent.owns_right hg)).mpr ⟨r, hr, reaches.tail adjacent⟩
    exact fun fresh => fresh.not_finished further

end Resting

section Moves

theorem Invariant.finished_of_move (h : Invariant g s) (m : Move g s t) (hb : s.Finished b) :
    t.Finished b := by
  cases m with
  | root _ _ fresh _ => exact (finished_enter fresh).mpr hb
  | descend _ fresh => exact (finished_enter (fresh_withFrames.mpr fresh)).mpr hb
  | close => exact hb
  | skip => exact hb
  | leave top => exact (finished_leave (h.lt_size (h.owned_of_top top))).mpr (.inl hb)

theorem Move.entered_or_atEdge (hg : g.Reachable) (h : Invariant g s) (busy : s.frames ≠ [])
    (m : Move g s t) (hb : g.Owns b) (entered : ¬ t.Fresh b) :
    ¬ s.Fresh b ∨ ∃ a, s.AtEdge a b := by
  cases m with
  | root idle => exact absurd idle busy
  | @descend a next passed ahead below top fresh =>
    by_cases before : s.Fresh b
    · have owned := (h.next_adjacent top).owns_right hg
      obtain rfl : b = next := eq_of_entered owned (fresh_withFrames.mpr fresh) hb before entered
      exact .inr ⟨a, passed, ahead, below, top⟩
    · exact .inl before
  | close => exact .inl entered
  | skip => exact .inl entered
  | leave top => exact .inl fun fresh => entered ((fresh_leave (h.not_fresh_of_top top)).mpr fresh)

theorem Move.loops (hg : g.Reachable) (h : Invariant g s) (m : Move g s t) :
    ∃ found, t.loops.toList = s.loops.toList ++ found ∧
      ∀ l ∈ found, ∀ b ∈ l.blocks, b ∈ s.path.toList := by
  have none : ∃ found, s.loops.toList = s.loops.toList ++ found ∧
      ∀ l ∈ found, ∀ b ∈ l.blocks, b ∈ s.path.toList := ⟨[], (List.append_nil _).symm, nofun⟩
  cases m with
  | root => exact none
  | descend => exact none
  | @close _ next _ _ _ position top active =>
    have owned := (h.next_adjacent top).owns_right hg
    refine ⟨[⟨(s.path.extract position).toList ++ [next]⟩], Array.toList_push, ?_⟩
    rintro l hl b hb
    obtain rfl := List.mem_singleton.mp hl
    rcases List.mem_append.mp hb with cut | last
    · rw [h.suffix_of_active owned active] at cut
      exact List.mem_of_mem_drop cut
    · obtain rfl := List.mem_singleton.mp last
      exact (h.mem_path_iff_active owned).mpr ⟨position, active⟩
  | skip => exact none
  | leave => exact none

end Moves

section Exploring

theorem Exploring.of_mem_path (e : Exploring g s root t) (hs : Invariant g s)
    (idle : s.frames = []) (h : Invariant g t) (hb : b ∈ t.path.toList) :
    g.Owns b ∧ s.Fresh b := by
  have owned := h.owned_of_mem_path hb
  refine ⟨owned, by_contra fun entered => ?_⟩
  have finished := e.kept b (hs.finished_of_idle idle owned entered)
  exact h.not_mem_path_of_finished finished hb

theorem exploring_enter (hs : Seen g s) (h : Invariant g s) (idle : s.frames = [])
    (owned : g.Owns root) (fresh : s.Fresh root) : Exploring g s root (s.enter g root) := by
  refine ⟨hs.enter_root idle fresh, not_fresh_enter fresh,
    fun b hb => (finished_enter fresh).mpr hb, fun b hb entered => ?_, [],
    (List.append_nil _).symm, nofun⟩
  by_cases before : s.Fresh b
  · obtain rfl : b = root := eq_of_entered owned fresh hb before entered
    exact .inr .refl
  · exact .inl (h.finished_of_idle idle hb before)

theorem Exploring.move (hg : g.Reachable) (e : Exploring g s root t) (hs : Invariant g s)
    (idle : s.frames = []) (h : Invariant g t) (busy : t.frames ≠ []) (m : Move g t u) :
    Exploring g s root u := by
  refine ⟨e.seen.move h m, fun now => e.begun (h.fresh_of_move m now),
    fun b hb => h.finished_of_move m (e.kept b hb), fun b hb entered => ?_, ?_⟩
  · rcases m.entered_or_atEdge hg h busy hb entered with before | ⟨a, _, _, _, top⟩
    · exact e.within b hb before
    · -- the top block is on the path, so it was not finished before the root was entered
      have step := h.next_adjacent top
      rcases e.within a step.owns_left (h.not_fresh_of_top top) with finished | reaches
      · have on_path : a ∈ t.path.toList := by simp [h.path_eq_of_top top]
        exact absurd on_path (h.not_mem_path_of_finished (e.kept a finished))
      · exact .inr (reaches.tail step)
  · obtain ⟨before, so_far, old⟩ := e.loops
    obtain ⟨found, now, new⟩ := m.loops hg h
    refine ⟨before ++ found, by rw [now, so_far, List.append_assoc], fun l hl b hb => ?_⟩
    rcases List.mem_append.mp hl with hl | hl
    · obtain ⟨owned, fresh, entered⟩ := old l hl b hb
      exact ⟨owned, fresh, fun now => entered (h.fresh_of_move m now)⟩
    · have on_path := new l hl b hb
      obtain ⟨owned, fresh⟩ := e.of_mem_path hs idle h on_path
      exact ⟨owned, fresh, fun now => h.not_mem_path_of_fresh (h.fresh_of_move m now) on_path⟩

theorem Iterates.exploring (hg : g.Reachable) (h : Resting g s taken) (owned : g.Owns root)
    (fresh : s.Fresh root) (iterates : Iterates g (s.enter g root) heads t) :
    Exploring g s root t := by
  have begun := h.invariant.enter_root h.frames owned fresh
  have start := exploring_enter (h.seen hg) h.invariant h.frames owned fresh
  refine iterates.keeps (P := fun u _ => Exploring g s root u) hg ?_ begun [] start
  intro u v _ hu busy m e
  exact e.move hg h.invariant h.frames hu busy m

theorem Exploring.explored (hg : g.Reachable) (e : Exploring g s root t) (h : Invariant g t)
    (idle : t.frames = []) (owned : g.Owns root) : Explored g s root t := by
  have finished_root : t.Finished root := h.finished_of_idle idle owned e.begun
  refine ⟨fun b hb => ⟨fun finished => ?_, ?_⟩, ?_⟩
  · exact e.within b hb fun fresh => fresh.not_finished finished
  · rintro (finished | reaches)
    · exact e.kept b finished
    · exact e.seen.finished_of_reaches hg h idle finished_root reaches
  · obtain ⟨found, loops, all⟩ := e.loops
    refine ⟨found, loops, fun l hl b hb => ?_⟩
    obtain ⟨owned, fresh, entered⟩ := all l hl b hb
    exact ⟨owned, fresh, h.finished_of_idle idle owned entered⟩

end Exploring

section Rounds

theorem Resting.next (h : Resting g s taken) (e : Explored g s root t) (ht : Invariant g t)
    (idle : t.frames = []) : Resting g t (taken ++ [root]) := by
  have path : t.path = #[] := Array.toList_eq_nil_iff.mp (ht.path_of_idle idle)
  refine ⟨ht.marks_size, idle, path, fun i position => ?_, fun b hb => ?_⟩
  · rw [ht.active_iff, path]
    simp
  · rw [e.finished_iff b hb, h.finished_iff b hb]
    simp only [List.mem_append, List.mem_singleton, or_and_right, exists_or, exists_eq_left]

theorem Resting.iterates (hg : g.Reachable) (h : Resting g s taken) (owned : g.Owns root)
    (fresh : s.Fresh root) (iterates : Iterates g (s.enter g root) heads t) :
    Resting g t (taken ++ [root]) ∧ Explored g s root t := by
  have ended := iterates.invariant hg (h.invariant.enter_root h.frames owned fresh)
  have e := (iterates.exploring hg h owned fresh).explored hg ended iterates.idle owned
  exact ⟨h.next e ended iterates.idle, e⟩

theorem Resting.exists_explore (hg : g.Reachable) (h : Resting g s taken) (owned : g.Owns root)
    (fresh : s.Fresh root) :
    ∃ t, s.explore g root = .ok t ∧ Resting g t (taken ++ [root]) ∧ Explored g s root t := by
  obtain ⟨heads, t, iterates⟩ := exists_iterates hg (h.invariant.enter_root h.frames owned fresh)
  have entered := descend_eq_ok h.invariant owned
  exact ⟨t, iterates.explore entered, h.iterates hg owned fresh iterates⟩

theorem Rounds.resting (hg : g.Reachable) {rounds : List Round}
    (h : Rounds g (initial g) roots rounds t) (owned : ∀ b ∈ roots, g.Owns b) :
    Resting g t (rounds.map (·.root)) := by
  have start := resting_initial g
  refine h.keeps (P := fun u done => Resting g u (done.map (·.root))) hg ?_ owned start.invariant
    rfl [] start
  intro u v b heads done _ _ owned fresh iterates rests
  rw [List.map_append, List.map_singleton]
  exact (rests.iterates hg owned fresh iterates).1

end Rounds

/-- From any state between two roots, an unvisited root adds what it reaches and nothing else, and
its loops lie in what it adds. Whatever roots are taken, in whatever order, the search comes to such
a state after each of them. With every block a root in its turn, it finishes every block. -/
theorem explores_what_roots_reach (hg : g.Reachable) :
    (∀ s taken, Resting g s taken → ∀ root, g.Owns root → s.Fresh root →
      ∃ t, s.explore g root = .ok t ∧ Resting g t (taken ++ [root]) ∧ Explored g s root t) ∧
    (∀ roots, (∀ b ∈ roots, g.Owns b) → ∃ rounds t, Rounds g (initial g) roots rounds t ∧
      Resting g t (rounds.map (·.root)) ∧
      ∀ rest, (initial g).exploreAll g (roots ++ rest) = t.exploreAll g rest) ∧
    ∃ s, ofGraph g = .ok s ∧ ∀ b, g.Owns b → s.Finished b := by
  refine ⟨fun s taken h root owned fresh => h.exists_explore hg owned fresh, fun roots owned => ?_,
    ?_⟩
  · obtain ⟨rounds, t, search⟩ := exists_rounds hg (invariant_initial g) rfl owned
    exact ⟨rounds, t, search, search.resting hg owned, search.exploreAll_append⟩
  · obtain ⟨s, made, -, -, finished⟩ := exists_run hg
    exact ⟨s, made, finished⟩

end Search

namespace Graph

def rejoining : Graph :=
  ofLists 0 ["a", "b", "c", "d"] [⟨0, 1⟩, ⟨1, 0⟩, ⟨2, 3⟩, ⟨3, 1⟩, ⟨3, 2⟩]

theorem reachable_rejoining : rejoining.Reachable := reachable_ofLists (by decide)

end Graph

namespace Search
open FlowLoops.Graph

def betweenRounds : Search :=
  ⟨#[.finished, .finished, .fresh, .fresh], #[], [], #[⟨⟨0, 1⟩, ⟨0, 0⟩⟩],
    #[⟨[⟨0, 0⟩, ⟨0, 1⟩, ⟨0, 0⟩]⟩]⟩

theorem explore_first : (initial rejoining).explore rejoining ⟨0, 0⟩ = .ok betweenRounds := by
  cbv

theorem rejoining_explored : rejoining.Reachable ∧ Resting rejoining betweenRounds [⟨0, 0⟩] ∧
    betweenRounds.Fresh ⟨0, 2⟩ ∧ ¬ rejoining.Reaches ⟨0, 0⟩ ⟨0, 2⟩ ∧
    (∃ t, betweenRounds.explore rejoining ⟨0, 2⟩ = .ok t ∧ Resting rejoining t [⟨0, 0⟩, ⟨0, 2⟩] ∧
      Explored rejoining betweenRounds ⟨0, 2⟩ t) ∧
    ∃ rounds t, Rounds rejoining (initial rejoining) [⟨0, 3⟩, ⟨0, 0⟩] rounds t ∧
      Resting rejoining t (rounds.map (·.root)) := by
  obtain ⟨one_root, all_roots, -⟩ := explores_what_roots_reach reachable_rejoining
  obtain ⟨s, first, rests, explored⟩ :=
    one_root _ _ (resting_initial rejoining) ⟨0, 0⟩ (by decide) rfl
  obtain rfl := Except.ok.inj (first.symm.trans explore_first)
  obtain ⟨rounds, t, search, ended, -⟩ := all_roots [⟨0, 3⟩, ⟨0, 0⟩] (by decide)
  have fresh : betweenRounds.Fresh ⟨0, 2⟩ := rfl
  refine ⟨reachable_rejoining, rests, fresh, fun reaches => ?_,
    one_root _ _ rests ⟨0, 2⟩ (by decide) fresh, rounds, t, search, ended⟩
  exact fresh.not_finished ((explored.finished_iff ⟨0, 2⟩ (by decide)).mpr (.inr reaches))

end Search
end FlowLoops
