import FlowLoops.Proofs.Graph.Incidence
import FlowLoops.Proofs.Search.Run
import Mathlib.Algebra.BigOperators.Group.List.Basic

/-! The iterations of a search, one for each state at the head of its loop. Each of them takes one
off the pending work, which at the start has a unit for every block and for every edge. -/

namespace FlowLoops
namespace Search
variable {g : Graph} {s t : Search} {b next : BlockId} {passed ahead roots : List BlockId}
  {below : List Frame} {heads : List Search}

inductive Iterates (g : Graph) : Search → List Search → Search → Prop
  | stop {s : Search} (idle : s.frames = []) : Iterates g s [] s
  | next {s t u : Search} {heads : List Search} (busy : s.frames ≠ []) (stepped : s.step g = .ok t)
    (rest : Iterates g t heads u) : Iterates g s (s :: heads) u

structure Round where
  root : BlockId
  heads : List Search

/-- The rounds of a search over a list of roots, one for each that is found unvisited. -/
inductive Rounds (g : Graph) : Search → List BlockId → List Round → Search → Prop
  | stop {s : Search} : Rounds g s [] [] s
  | visited {s t : Search} {b : BlockId} {roots : List BlockId} {rounds : List Round}
    (inside : b.index < s.marks.size) (entered : ¬ s.Fresh b) (rest : Rounds g s roots rounds t) :
    Rounds g s (b :: roots) rounds t
  | root {s begun ended t : Search} {b : BlockId} {roots : List BlockId} {heads : List Search}
    {rounds : List Round} (fresh : s.Fresh b) (entered : s.descend g b = .ok begun)
    (iterates : Iterates g begun heads ended) (rest : Rounds g ended roots rounds t) :
    Rounds g s (b :: roots) (⟨b, heads⟩ :: rounds) t

def iterationCount (rounds : List Round) : Nat := (rounds.map (·.heads.length)).sum

section Ends

theorem Iterates.idle (h : Iterates g s heads t) : t.frames = [] := by
  induction h with
  | stop idle => exact idle
  | next _ _ _ ih => exact ih

theorem Iterates.exhaust (h : Iterates g s heads t) : s.exhaust g = .ok t := by
  induction h with
  | stop idle => exact exhaust_of_idle idle
  | next busy stepped _ ih => exact (exhaust_of_step busy stepped).trans ih

theorem Iterates.explore (h : Iterates g s heads t) {before : Search}
    (entered : before.descend g b = .ok s) : before.explore g b = .ok t := by
  simp only [Search.explore, entered, h.exhaust]

theorem Rounds.exploreAll_append {rounds : List Round} (h : Rounds g s roots rounds t)
    (rest : List BlockId) : s.exploreAll g (roots ++ rest) = t.exploreAll g rest := by
  induction h with
  | stop => rfl
  | visited inside entered _ ih => exact (exploreAll_of_not_fresh inside entered).trans ih
  | root fresh entered iterates _ ih =>
    exact (exploreAll_of_fresh fresh (iterates.explore entered)).trans ih

theorem Rounds.exploreAll {rounds : List Round} (h : Rounds g s roots rounds t) :
    s.exploreAll g roots = .ok t := by
  have all := h.exploreAll_append []
  rwa [List.append_nil] at all

theorem move_of_step (hg : g.Reachable) (h : Invariant g s) (busy : s.frames ≠ [])
    (stepped : s.step g = .ok t) : Move g s t := by
  obtain ⟨u, stepped', m⟩ := exists_move hg h busy
  obtain rfl := Except.ok.inj (stepped.symm.trans stepped')
  exact m

theorem Iterates.invariant (hg : g.Reachable) (h : Iterates g s heads t) (hs : Invariant g s) :
    Invariant g t := by
  induction h with
  | stop => exact hs
  | next busy stepped _ ih => exact ih (hs.move hg (move_of_step hg hs busy stepped))

theorem Invariant.enter_root (h : Invariant g s) (idle : s.frames = []) (owned : g.Owns b)
    (fresh : s.Fresh b) : Invariant g (s.enter g b) := h.enter owned fresh (by simp [idle])

theorem Seen.enter_root (hs : Seen g s) (idle : s.frames = []) (fresh : s.Fresh b) :
    Seen g (s.enter g b) := by
  rintro u v (⟨f, hf, -, hv⟩ | ⟨finished, adjacent⟩) now
  · simp only [Search.enter, idle, List.mem_singleton] at hf
    subst hf
    cases hv
  · have before := (finished_enter fresh).mp finished
    exact hs u v (.inr ⟨before, adjacent⟩) ((fresh_enter fresh).mp now).1

theorem exists_iterates (hg : g.Reachable) (h : Invariant g s) :
    ∃ heads t, Iterates g s heads t := by
  -- each step takes something off the pending work
  induction work : s.pending g using Nat.strongRecOn generalizing s with
  | ind n ih =>
    by_cases idle : s.frames = []
    · exact ⟨[], s, .stop idle⟩
    · obtain ⟨t, stepped, m⟩ := exists_move hg h idle
      have less : t.pending g < n := work ▸ pending_step_lt idle stepped
      obtain ⟨heads, u, rest⟩ := ih _ less (h.move hg m) rfl
      exact ⟨s :: heads, u, .next idle stepped rest⟩

theorem exists_rounds (hg : g.Reachable) (h : Invariant g s) (idle : s.frames = [])
    (owned : ∀ b ∈ roots, g.Owns b) : ∃ rounds t, Rounds g s roots rounds t := by
  induction roots generalizing s with
  | nil => exact ⟨[], s, .stop⟩
  | cons b rest ih =>
    obtain ⟨owned, others⟩ := List.forall_mem_cons.mp owned
    by_cases fresh : s.Fresh b
    · have begun := h.enter_root idle owned fresh
      obtain ⟨heads, t, iterates⟩ := exists_iterates hg begun
      obtain ⟨rounds, u, more⟩ := ih (iterates.invariant hg begun) iterates.idle others
      exact ⟨⟨b, heads⟩ :: rounds, u, .root fresh (descend_eq_ok h owned) iterates more⟩
    · obtain ⟨rounds, t, more⟩ := ih h idle others
      exact ⟨rounds, t, .visited (h.lt_size owned) fresh more⟩

end Ends

section Keeping

/-! What iterations keep, told of a state and of what came before it. -/

theorem Iterates.keeps {P : Search → List Search → Prop} (hg : g.Reachable)
    (step : ∀ {s t : Search} {seen : List Search}, Invariant g s → s.frames ≠ [] → Move g s t →
      P s seen → P t (seen ++ [s]))
    (h : Iterates g s heads t) (hs : Invariant g s) (seen : List Search) (start : P s seen) :
    P t (seen ++ heads) := by
  induction h generalizing seen with
  | stop => exact (List.append_nil seen).symm ▸ start
  | @next s _ _ heads busy stepped _ ih =>
    have m := move_of_step hg hs busy stepped
    rw [← List.singleton_append, ← List.append_assoc]
    exact ih (hs.move hg m) _ (step hs busy m start)

theorem Rounds.keeps {P : Search → List Round → Prop} (hg : g.Reachable)
    (explored : ∀ {s t : Search} {b : BlockId} {heads : List Search} {done : List Round},
      Invariant g s → s.frames = [] → g.Owns b → s.Fresh b → Iterates g (s.enter g b) heads t →
      P s done → P t (done ++ [⟨b, heads⟩]))
    {rounds : List Round} (h : Rounds g s roots rounds t) (owned : ∀ b ∈ roots, g.Owns b)
    (hs : Invariant g s) (idle : s.frames = []) (done : List Round) (start : P s done) :
    P t (done ++ rounds) := by
  induction h generalizing done with
  | stop => exact (List.append_nil done).symm ▸ start
  | visited _ _ _ ih => exact ih (List.forall_mem_cons.mp owned).2 hs idle _ start
  | @root s begun _ _ b _ heads _ fresh entered iterates _ ih =>
    obtain ⟨owned, others⟩ := List.forall_mem_cons.mp owned
    obtain rfl := Except.ok.inj ((descend_eq_ok hs owned).symm.trans entered)
    have ended := iterates.invariant hg (hs.enter_root idle owned fresh)
    rw [← List.singleton_append, ← List.append_assoc]
    exact ih others ended iterates.idle _ (explored hs idle owned fresh iterates start)

end Keeping

section Pending

theorem pending_withFrames (top : s.frames = ⟨b, passed, next :: ahead⟩ :: below) :
    (s.withFrames (⟨b, next :: passed, ahead⟩ :: below)).pending g + 1 = s.pending g := by
  simp only [pending, withFrames, top, List.foldr_cons, List.length_cons]
  omega

theorem pending_enter (h : Invariant g s) (owned : g.Owns b) (fresh : s.Fresh b) :
    (s.enter g b).pending g = s.pending g :=
  pending_descend (descend_eq_ok h owned) fresh

theorem pending_leave (h : Invariant g s) (top : s.frames = ⟨b, passed, []⟩ :: below) :
    (s.leave b below).pending g + 1 = s.pending g := by
  have inside := h.lt_size (h.owned_of_top top)
  have visited : s.marks[b.index] ≠ .fresh := by
    intro fresh
    exact h.not_fresh_of_top top (by rw [Fresh, Array.getElem?_eq_getElem inside, fresh])
  have marks := unseen_marks_set g s.marks .finished inside (by simp)
  rw [if_neg visited, Nat.add_zero] at marks
  simp only [pending, leave, Array.setIfInBounds, dif_pos inside, marks, top, List.foldr_cons,
    List.length_nil]
  omega

theorem Move.pending (hg : g.Reachable) (h : Invariant g s) (busy : s.frames ≠ [])
    (m : Move g s t) : t.pending g + 1 = s.pending g := by
  cases m with
  | root idle => exact absurd idle busy
  | descend top fresh =>
    have owned := (h.next_adjacent top).owns_right hg
    rw [pending_enter (h.pass top) owned fresh, pending_withFrames top]
  | close top => exact pending_withFrames top
  | skip top => exact pending_withFrames top
  | leave top => exact pending_leave h top

theorem unseen_replicate (cost : Nat → Nat) (start n : Nat) :
    unseen cost start (List.replicate n .fresh) = ((List.range' start n).map cost).sum := by
  induction n generalizing start with
  | zero => rfl
  | succ n ih =>
    rw [List.replicate_succ, unseen, if_pos rfl, ih, List.range'_succ, List.map_cons,
      List.sum_cons]

theorem unseen_eq_zero (cost : Nat → Nat) (start : Nat) {marks : List Mark}
    (visited : ∀ m ∈ marks, m ≠ .fresh) : unseen cost start marks = 0 := by
  induction marks generalizing start with
  | nil => rfl
  | cons m rest ih =>
    obtain ⟨first, others⟩ := List.forall_mem_cons.mp visited
    rw [unseen, if_neg first, ih _ others]

theorem cost_eq (hg : g.Reachable) {i : Nat} (inside : i < g.blockCount) :
    cost g i = g.outDegree i + 1 := by
  have owned := Graph.owns_handle.mpr inside
  have work := length_successors (Graph.successors_eq_targets owned)
  rw [hg.length_targets owned] at work
  exact work.symm

theorem pending_initial (hg : g.Reachable) :
    (initial g).pending g = g.blockCount + g.edgeCount := by
  have costs : (List.range g.blockCount).map (cost g) =
      (List.range g.blockCount).map fun i => g.edges.toList.countP (·.source = i) + 1 :=
    List.map_congr_left fun i hi => cost_eq hg (List.mem_range.mp hi)
  have whole : g.edges.toList.countP (·.source < g.blockCount) = g.edges.toList.length :=
    List.countP_eq_length.mpr fun e he => decide_eq_true (hg.consistent.source_lt e he)
  rw [pending, initial, Array.toList_replicate, unseen_replicate, ← List.range_eq_range', costs,
    List.sum_map_add, sum_countP_range, whole]
  simp [Graph.edgeCount, Nat.add_comm]

theorem pending_eq_zero (h : Invariant g s) (idle : s.frames = [])
    (entered : ∀ b, g.Owns b → ¬ s.Fresh b) : s.pending g = 0 := by
  have visited : ∀ m ∈ s.marks.toList, m ≠ .fresh := by
    rintro m mem rfl
    obtain ⟨i, at_i⟩ := List.mem_iff_getElem?.mp mem
    rw [Array.getElem?_toList] at at_i
    have inside : i < g.blockCount := h.marks_size ▸ (Array.getElem?_eq_some_iff.mp at_i).1
    exact entered (g.handle i) (Graph.owns_handle.mpr inside) at_i
  rw [pending, unseen_eq_zero _ _ visited, idle]
  rfl

theorem Iterates.pending (hg : g.Reachable) (h : Iterates g s heads t) (hs : Invariant g s) :
    heads.length + t.pending g = s.pending g := by
  refine h.keeps (P := fun u seen => seen.length + u.pending g = s.pending g) hg ?_ hs
    [] (Nat.zero_add _)
  intro u v seen hu busy m total
  have one := m.pending hg hu busy
  rw [List.length_append, List.length_singleton]
  omega

theorem iterationCount_concat (done : List Round) (b : BlockId) (heads : List Search) :
    iterationCount (done ++ [⟨b, heads⟩]) = iterationCount done + heads.length := by
  simp [iterationCount]

theorem Rounds.pending (hg : g.Reachable) {rounds : List Round} (h : Rounds g s roots rounds t)
    (owned : ∀ b ∈ roots, g.Owns b) (hs : Invariant g s) (idle : s.frames = []) :
    iterationCount rounds + t.pending g = s.pending g := by
  refine h.keeps (P := fun u done => iterationCount done + u.pending g = s.pending g) hg ?_ owned hs
    idle [] (Nat.zero_add _)
  intro u v b heads done hu idle owned fresh iterates total
  have round := iterates.pending hg (hu.enter_root idle owned fresh)
  rw [pending_enter hu owned fresh] at round
  rw [iterationCount_concat]
  omega

end Pending

end Search
end FlowLoops
