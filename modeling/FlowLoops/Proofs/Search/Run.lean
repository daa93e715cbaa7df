import FlowLoops.Proofs.Search.Invariant

/-! The search as a run of moves. No step of it meets a fault on a graph of the store, and it ends
with every block finished. -/

namespace FlowLoops
namespace Search
open Relation
variable {g : Graph} {s t : Search} {b : BlockId}

def Run (g : Graph) : Search → Prop := ReflTransGen (Move g) (initial g)

theorem Run.invariant (hg : g.Reachable) (h : Run g s) : Invariant g s := by
  induction h with
  | refl => exact invariant_initial g
  | tail _ m ih => exact ih.move hg m

theorem Run.seen (hg : g.Reachable) (h : Run g s) : Seen g s := by
  induction h with
  | refl => exact seen_initial g
  | tail before m ih => exact ih.move (Run.invariant hg before) m

theorem descend_eq_ok (h : Invariant g s) (hb : g.Owns b) : s.descend g b = .ok (s.enter g b) := by
  have inside := h.lt_size hb
  simp [descend, Graph.successors_eq_targets hb, inside, enter, Array.setIfInBounds]

theorem retreat_eq_ok (h : Invariant g s) {passed ahead : List BlockId} {below : List Frame}
    (top : s.frames = ⟨b, passed, ahead⟩ :: below) : s.retreat = .ok (s.leave b below) := by
  have inside := h.lt_size (h.owned_of_top top)
  simp [retreat, top, inside, leave, Array.setIfInBounds]

section Steps
variable {next : BlockId} {passed ahead : List BlockId} {below : List Frame}

theorem step_leave (h : Invariant g s) (top : s.frames = ⟨b, passed, []⟩ :: below) :
    s.step g = .ok (s.leave b below) := by
  simp only [step, top, retreat_eq_ok h top]

theorem step_ahead (top : s.frames = ⟨b, passed, next :: ahead⟩ :: below) :
    s.step g = (s.withFrames (⟨b, next :: passed, ahead⟩ :: below)).follow g b next := by
  simp only [step, top, withFrames]

theorem step_descend (hg : g.Reachable) (h : Invariant g s)
    (top : s.frames = ⟨b, passed, next :: ahead⟩ :: below) (fresh : s.Fresh next) :
    s.step g = .ok ((s.withFrames (⟨b, next :: passed, ahead⟩ :: below)).enter g next) := by
  have owned : g.Owns next := (h.next_adjacent top).owns_right hg
  rw [Fresh] at fresh
  simp only [step_ahead top, follow, withFrames, fresh]
  exact descend_eq_ok (h.pass top) owned

theorem step_close (h : Invariant g s) (top : s.frames = ⟨b, passed, next :: ahead⟩ :: below)
    {position : Nat} (active : s.marks[next.index]? = some (.active position)) :
    s.step g =
      .ok ((s.withFrames (⟨b, next :: passed, ahead⟩ :: below)).record b next position) := by
  have placed := (h.active_iff next.index position).mp active
  have within : position < s.path.size := (Array.getElem?_eq_some_iff.mp placed).1
  simp only [step_ahead top, follow, withFrames, active, Nat.le_of_lt within, if_true, record]

theorem step_skip (top : s.frames = ⟨b, passed, next :: ahead⟩ :: below)
    (finished : s.Finished next) :
    s.step g = .ok (s.withFrames (⟨b, next :: passed, ahead⟩ :: below)) := by
  rw [Finished] at finished
  simp only [step_ahead top, follow, withFrames, finished]

end Steps

theorem exists_move (hg : g.Reachable) (h : Invariant g s) (busy : s.frames ≠ []) :
    ∃ t, s.step g = .ok t ∧ Move g s t := by
  match top : s.frames with
  | [] => exact absurd top busy
  | ⟨b, passed, []⟩ :: below => exact ⟨_, step_leave h top, .leave top⟩
  | ⟨b, passed, next :: ahead⟩ :: below =>
    have owned : g.Owns next := (h.next_adjacent top).owns_right hg
    rcases h.mark_cases owned with fresh | ⟨position, active⟩ | finished
    · exact ⟨_, step_descend hg h top fresh, .descend top fresh⟩
    · exact ⟨_, step_close h top active, .close top active⟩
    · exact ⟨_, step_skip top finished, .skip top finished⟩

theorem exhaust_of_idle (idle : s.frames = []) : s.exhaust g = .ok s := by
  rw [exhaust, dif_pos idle]

theorem exhaust_of_step (busy : s.frames ≠ []) (hs : s.step g = .ok t) :
    s.exhaust g = t.exhaust g := by
  rw [exhaust, dif_neg busy]
  split
  next fault failed => simp [hs] at failed
  next next stepped =>
    obtain rfl := Except.ok.inj (hs.symm.trans stepped)
    rfl

theorem exhaust_run (hg : g.Reachable) (h : Run g s) :
    ∃ t, s.exhaust g = .ok t ∧ Run g t ∧ ReflTransGen (Move g) s t ∧ t.frames = [] := by
  -- each step takes something off the pending work
  induction work : s.pending g using Nat.strongRecOn generalizing s with
  | ind n ih =>
    by_cases idle : s.frames = []
    · exact ⟨s, exhaust_of_idle idle, h, .refl, idle⟩
    · obtain ⟨t, stepped, m⟩ := exists_move hg (h.invariant hg) idle
      have less : t.pending g < n := work ▸ pending_step_lt idle stepped
      obtain ⟨u, ends, run, moves, done⟩ := ih _ less (h.tail m) rfl
      exact ⟨u, (exhaust_of_step idle stepped).trans ends, run, .head m moves, done⟩

theorem Run.not_fresh_of_moves (hg : g.Reachable) (h : Run g s)
    (moves : ReflTransGen (Move g) s t) (hb : ¬ s.Fresh b) : ¬ t.Fresh b := by
  induction moves with
  | refl => exact hb
  | tail before m ih =>
    have run : Run g _ := ReflTransGen.trans h before
    exact fun fresh => ih ((run.invariant hg).fresh_of_move m fresh)

theorem handles_pairwise (g : Graph) : g.handles.Pairwise fun a b => a.index < b.index := by
  rw [Graph.handles, List.pairwise_map]
  exact List.pairwise_lt_range

theorem mem_of_index_lt {a : BlockId} {earlier rest : List BlockId}
    (order : g.handles = earlier ++ b :: rest) (ha : g.Owns a) (lt : a.index < b.index) :
    a ∈ earlier := by
  have mem := Graph.mem_handles.mpr ha
  have sorted := handles_pairwise g
  rw [order, List.mem_append] at mem
  rw [order, List.pairwise_append, List.pairwise_cons] at sorted
  rcases mem with mem | mem
  · exact mem
  · rcases List.mem_cons.mp mem with rfl | mem
    · exact absurd lt (Nat.lt_irrefl _)
    · exact absurd lt (Nat.lt_asymm (sorted.2.1.1 a mem))

theorem exploreAll_of_fresh {rest : List BlockId} (fresh : s.Fresh b)
    (explored : s.explore g b = .ok t) : s.exploreAll g (b :: rest) = t.exploreAll g rest := by
  rw [Fresh] at fresh
  simp only [exploreAll, fresh, explored]

theorem exploreAll_of_not_fresh {rest : List BlockId} (inside : b.index < s.marks.size)
    (entered : ¬ s.Fresh b) : s.exploreAll g (b :: rest) = s.exploreAll g rest := by
  rw [Fresh, Array.getElem?_eq_getElem inside] at entered
  rw [exploreAll, Array.getElem?_eq_getElem inside]
  cases mark : s.marks[b.index] with
  | fresh => exact absurd (congrArg some mark) entered
  | active position => rfl
  | finished => rfl

theorem exploreAll_run (hg : g.Reachable) (h : Run g s) (idle : s.frames = [])
    {earlier roots : List BlockId} (order : g.handles = earlier ++ roots)
    (entered : ∀ a ∈ earlier, ¬ s.Fresh a) :
    ∃ t, s.exploreAll g roots = .ok t ∧ Run g t ∧ t.frames = [] ∧ ∀ a, g.Owns a → ¬ t.Fresh a := by
  induction roots generalizing s earlier with
  | nil =>
    refine ⟨s, rfl, h, idle, fun a ha => entered a ?_⟩
    rw [List.append_nil] at order
    exact order ▸ Graph.mem_handles.mpr ha
  | cons b rest ih =>
    have owned : g.Owns b := by
      rw [← Graph.mem_handles, order]
      exact List.mem_append_right _ List.mem_cons_self
    have inside := (h.invariant hg).lt_size owned
    have order' : g.handles = (earlier ++ [b]) ++ rest := by simpa using order
    by_cases fresh : s.Fresh b
    · have root : Move g s (s.enter g b) :=
        .root idle owned fresh fun a ha lt => entered a (mem_of_index_lt order ha lt)
      have begun : Run g (s.enter g b) := h.tail root
      obtain ⟨t, ends, run, moves, done⟩ := exhaust_run hg begun
      have explored : s.explore g b = .ok t := by
        simp only [explore, descend_eq_ok (h.invariant hg) owned, ends]
      have moved : ReflTransGen (Move g) s t := .head root moves
      obtain ⟨u, all, rest_run⟩ := ih run done order' fun a ha => by
        rcases List.mem_append.mp ha with ha | ha
        · exact h.not_fresh_of_moves hg moved (entered a ha)
        · obtain rfl := List.mem_singleton.mp ha
          exact begun.not_fresh_of_moves hg moves (not_fresh_enter fresh)
      exact ⟨u, (exploreAll_of_fresh fresh explored).trans all, rest_run⟩
    · obtain ⟨u, all, rest_run⟩ := ih h idle order' fun a ha => by
        rcases List.mem_append.mp ha with ha | ha
        · exact entered a ha
        · exact List.mem_singleton.mp ha ▸ fresh
      exact ⟨u, (exploreAll_of_not_fresh inside fresh).trans all, rest_run⟩

/-- The search of a graph of the store meets no fault and finishes every block. -/
theorem exists_run (hg : g.Reachable) :
    ∃ s, ofGraph g = .ok s ∧ Run g s ∧ s.frames = [] ∧ ∀ b, g.Owns b → s.Finished b := by
  obtain ⟨s, made, run, idle, entered⟩ :=
    exploreAll_run hg (.refl : Run g (initial g)) rfl (List.nil_append g.handles).symm
      (fun a ha => absurd ha List.not_mem_nil)
  have h := run.invariant hg
  exact ⟨s, made, run, idle, fun b hb => h.finished_of_idle idle hb (entered b hb)⟩

end Search
end FlowLoops
