import FlowLoops.Proofs.Search.Iteration

/-! The account of a search. What it does to one block and with the edges out of it comes in one
order, whatever it does in between: the block is entered, each copy of each edge is looked at once,
and the block is left. -/

namespace FlowLoops
namespace Search
variable {g : Graph} {s t : Search} {b u v next : BlockId} {passed ahead roots : List BlockId}
  {below : List Frame} {heads : List Search}

inductive Call
  | enter (b : BlockId)
  | leave (b : BlockId)
  /-- looks at one copy of an edge -/
  | visit (source target : BlockId)
deriving DecidableEq

def Call.block : Call → BlockId
  | enter b => b
  | leave b => b
  | visit source _ => source

/-- The calls of one iteration. A block without an edge ahead is left. Else the next edge is looked
at, and a block that it finds unvisited is entered. -/
def calls (s : Search) : List Call :=
  match s.frames with
  | [] => []
  | ⟨b, _, []⟩ :: _ => [.leave b]
  | ⟨b, _, next :: _⟩ :: _ =>
    .visit b next :: if s.marks[next.index]? = some .fresh then [.enter next] else []

def Round.calls (r : Round) : List Call := .enter r.root :: r.heads.flatMap Search.calls

def about (b : BlockId) (log : List Call) : List Call := log.filter (·.block = b)

def begun (b : BlockId) (targets : List BlockId) : List Call := .enter b :: targets.map (.visit b)

structure Accounts (g : Graph) (s : Search) (log : List Call) : Prop where
  untouched : ∀ b, ¬ g.Owns b ∨ s.Fresh b → about b log = []
  active : ∀ f ∈ s.frames, about f.block log = begun f.block f.passed.reverse
  finished : ∀ b, g.Owns b → s.Finished b → about b log = begun b (g.targets b) ++ [.leave b]

variable {log : List Call}

theorem about_concat_self (c : Call) (log : List Call) :
    about c.block (log ++ [c]) = about c.block log ++ [c] := by
  simp [about]

theorem about_concat_of_ne {c : Call} (ne : c.block ≠ b) (log : List Call) :
    about b (log ++ [c]) = about b log := by
  simp [about, ne]

theorem begun_concat (b : BlockId) (targets : List BlockId) (v : BlockId) :
    begun b (targets ++ [v]) = begun b targets ++ [.visit b v] := by simp [begun]

theorem accounts_initial (g : Graph) : Accounts g (initial g) [] := by
  refine ⟨fun _ _ => rfl, nofun, fun b _ finished => ?_⟩
  simp [Finished, initial, Array.getElem?_replicate] at finished

section Iteration

theorem calls_leave (top : s.frames = ⟨b, passed, []⟩ :: below) : s.calls = [.leave b] := by
  rw [calls, top]

theorem calls_descend (top : s.frames = ⟨b, passed, next :: ahead⟩ :: below)
    (fresh : s.Fresh next) : s.calls = [.visit b next] ++ [.enter next] := by
  rw [Fresh] at fresh
  simp only [calls, top, if_pos fresh, List.singleton_append]

theorem calls_pass (top : s.frames = ⟨b, passed, next :: ahead⟩ :: below)
    (entered : ¬ s.Fresh next) : s.calls = [.visit b next] := by
  rw [Fresh] at entered
  simp only [calls, top, if_neg entered]

theorem atEdge_of_visit (mem : .visit u v ∈ s.calls) : s.AtEdge u v := by
  match top : s.frames with
  | [] => simp [calls, top] at mem
  | ⟨b, passed, []⟩ :: below => simp [calls, top] at mem
  | ⟨b, passed, next :: ahead⟩ :: below =>
    by_cases fresh : s.Fresh next
    · rw [calls_descend top fresh] at mem
      obtain ⟨rfl, rfl⟩ : u = b ∧ v = next := by simpa using mem
      exact ⟨passed, ahead, below, top⟩
    · rw [calls_pass top fresh] at mem
      obtain ⟨rfl, rfl⟩ : u = b ∧ v = next := by simpa using mem
      exact ⟨passed, ahead, below, top⟩

end Iteration

theorem Accounts.enter (a : Accounts g s log) (h : Invariant g s) (owned : g.Owns b)
    (fresh : s.Fresh b) : Accounts g (s.enter g b) (log ++ [.enter b]) := by
  refine ⟨fun c hc => ?_, fun f hf => ?_, fun c hc finished => ?_⟩
  · have ne : b ≠ c := by
      rintro rfl
      rcases hc with foreign | fresh'
      · exact foreign owned
      · exact not_fresh_enter fresh fresh'
    rw [about_concat_of_ne (c := .enter b) ne]
    exact a.untouched c (hc.imp_right fun fresh' => ((fresh_enter fresh).mp fresh').1)
  · rcases List.mem_cons.mp hf with rfl | before
    · have none := a.untouched b (.inr fresh)
      have now := about_concat_self (.enter b) log
      rw [Call.block, none] at now
      exact now
    · have ne : b ≠ f.block := by
        rintro rfl
        exact h.not_mem_path_of_fresh fresh (h.mem_path.mpr ⟨f, before, rfl⟩)
      rw [about_concat_of_ne (c := .enter b) ne]
      exact a.active f before
  · have before := (finished_enter fresh).mp finished
    have ne : b ≠ c := by
      rintro rfl
      exact fresh.not_finished before
    rw [about_concat_of_ne (c := .enter b) ne]
    exact a.finished c hc before

theorem Accounts.pass (a : Accounts g s log) (h : Invariant g s)
    (top : s.frames = ⟨b, passed, next :: ahead⟩ :: below) :
    Accounts g (s.withFrames (⟨b, next :: passed, ahead⟩ :: below)) (log ++ [.visit b next]) := by
  have frame : (⟨b, passed, next :: ahead⟩ : Frame) ∈ s.frames := top ▸ List.mem_cons_self
  have other {c : BlockId} (ne : b ≠ c) : about c (log ++ [.visit b next]) = about c log :=
    about_concat_of_ne (c := .visit b next) ne log
  refine ⟨fun c hc => ?_, fun f hf => ?_, fun c hc finished => ?_⟩
  · rw [other]
    · exact a.untouched c hc
    · rintro rfl
      rcases hc with foreign | fresh
      · exact foreign (h.owned_of_top top)
      · exact h.not_fresh_of_top top fresh
  · rcases List.mem_cons.mp hf with rfl | hf
    · have so_far : about b log = begun b passed.reverse := a.active _ frame
      rw [List.reverse_cons, begun_concat, ← so_far]
      exact about_concat_self (.visit b next) log
    · rw [other (h.block_ne_of_below top hf).symm]
      exact a.active f (top ▸ List.mem_cons_of_mem _ hf)
  · rw [other]
    · exact a.finished c hc finished
    · rintro rfl
      exact h.not_mem_path_of_finished finished (h.mem_path.mpr ⟨_, frame, rfl⟩)

theorem Accounts.leave (a : Accounts g s log) (h : Invariant g s)
    (top : s.frames = ⟨b, passed, []⟩ :: below) :
    Accounts g (s.leave b below) (log ++ [.leave b]) := by
  have frame : (⟨b, passed, []⟩ : Frame) ∈ s.frames := top ▸ List.mem_cons_self
  have owned := h.owned_of_top top
  have entered := h.not_fresh_of_top top
  have other {c : BlockId} (ne : b ≠ c) : about c (log ++ [.leave b]) = about c log :=
    about_concat_of_ne (c := .leave b) ne log
  refine ⟨fun c hc => ?_, fun f hf => ?_, fun c hc finished => ?_⟩
  · rw [fresh_leave entered] at hc
    rw [other]
    · exact a.untouched c hc
    · rintro rfl
      exact hc.elim (fun foreign => foreign owned) entered
  · rw [other (h.block_ne_of_below top hf).symm]
    exact a.active f (top ▸ List.mem_cons_of_mem _ hf)
  · by_cases same : b = c
    · subst same
      -- the frame that is left has passed all its edges
      have all := h.targets_of_top top
      rw [List.append_nil] at all
      have so_far : about b log = begun b passed.reverse := a.active _ frame
      rw [← all, ← so_far]
      exact about_concat_self (.leave b) log
    · rw [other same]
      refine a.finished c hc (((finished_leave (h.lt_size owned)).mp finished).resolve_right ?_)
      exact fun index => same (owned.eq_of_index hc index.symm)

theorem Accounts.move (hg : g.Reachable) (a : Accounts g s log) (h : Invariant g s)
    (busy : s.frames ≠ []) (m : Move g s t) : Accounts g t (log ++ s.calls) := by
  cases m with
  | root idle => exact absurd idle busy
  | descend top fresh =>
    rw [calls_descend top fresh, ← List.append_assoc]
    exact (a.pass h top).enter (h.pass top) ((h.next_adjacent top).owns_right hg) fresh
  | @close b next _ _ _ position top active =>
    have entered : ¬ s.Fresh next := by
      rw [Fresh, active]
      simp
    rw [calls_pass top entered]
    obtain ⟨untouched, active, finished⟩ := a.pass h top
    exact ⟨untouched, active, finished⟩
  | skip top finished =>
    rw [calls_pass top fun fresh => fresh.not_finished finished]
    exact a.pass h top
  | leave top =>
    rw [calls_leave top]
    exact a.leave h top

theorem Iterates.accounts (hg : g.Reachable) (h : Iterates g s heads t) (hs : Invariant g s)
    (a : Accounts g s log) : Accounts g t (log ++ heads.flatMap calls) := by
  refine h.keeps (P := fun u seen => Accounts g u (log ++ seen.flatMap calls)) hg ?_ hs []
    ((List.append_nil log).symm ▸ a)
  intro u v seen hu busy m so_far
  rw [List.flatMap_append, List.flatMap_singleton, ← List.append_assoc]
  exact so_far.move hg hu busy m

theorem Rounds.accounts (hg : g.Reachable) {rounds : List Round} (h : Rounds g s roots rounds t)
    (owned : ∀ b ∈ roots, g.Owns b) (hs : Invariant g s) (idle : s.frames = [])
    (a : Accounts g s []) : Accounts g t (rounds.flatMap Round.calls) := by
  refine h.keeps (P := fun u done => Accounts g u (done.flatMap Round.calls)) hg ?_ owned hs idle
    [] a
  intro u v b heads done hu idle owned fresh iterates so_far
  have entered := so_far.enter hu owned fresh
  have all := iterates.accounts hg (hu.enter_root idle owned fresh) entered
  rw [List.append_assoc] at all
  rw [List.flatMap_append, List.flatMap_singleton]
  exact all

section Counting

theorem count_about (c : Call) (log : List Call) : (about c.block log).count c = log.count c :=
  List.count_filter (decide_eq_true rfl)

variable {targets : List BlockId}

theorem count_enter (told : about b log = begun b targets ++ [.leave b]) :
    log.count (.enter b) = 1 := by
  rw [← count_about, Call.block, told]
  simp [begun, List.count_eq_zero]

theorem count_leave (told : about b log = begun b targets ++ [.leave b]) :
    log.count (.leave b) = 1 := by
  rw [← count_about, Call.block, told]
  simp [begun, List.count_eq_zero]

theorem count_visit (told : about b log = begun b targets ++ [.leave b]) (v : BlockId) :
    log.count (.visit b v) = targets.count v := by
  have injective : Function.Injective (Call.visit b) := fun _ _ same => (Call.visit.inj same).2
  rw [← count_about, Call.block, told]
  simp [begun, List.count_map_of_injective _ _ injective]

end Counting

/-- The loop ends after one iteration for each block and one for each edge. Every block is entered
once, then each copy of each edge out of it is looked at while the block is on top of the stack, in
the order in which the edges were added, and then the block is left. -/
theorem blocks_and_edges_accounted (hg : g.Reachable) :
    (∃ rounds s, Rounds g (initial g) g.handles rounds s) ∧
    ∀ rounds s, Rounds g (initial g) g.handles rounds s →
      ofGraph g = .ok s ∧ iterationCount rounds = g.blockCount + g.edgeCount ∧
      (∀ b, about b (rounds.flatMap Round.calls) =
        if g.Owns b then begun b (g.targets b) ++ [.leave b] else []) ∧
      (∀ b, g.Owns b → (rounds.flatMap Round.calls).count (.enter b) = 1 ∧
        (rounds.flatMap Round.calls).count (.leave b) = 1) ∧
      (∀ u v, g.Owns u → g.Owns v → (rounds.flatMap Round.calls).count (.visit u v) =
        g.edges.toList.count ⟨u.index, v.index⟩) ∧
      ∀ r ∈ rounds, ∀ head ∈ r.heads, ∀ u v, .visit u v ∈ head.calls → head.AtEdge u v := by
  have owned : ∀ b ∈ g.handles, g.Owns b := fun b hb => Graph.mem_handles.mp hb
  have start := invariant_initial g
  refine ⟨exists_rounds hg start rfl owned, fun rounds s search => ?_⟩
  obtain ⟨t, made, run, idle, finished⟩ := exists_run hg
  obtain rfl := Except.ok.inj (search.exploreAll.symm.trans made)
  have work := search.pending hg owned start rfl
  have accounts := search.accounts hg owned start rfl (accounts_initial g)
  have entered : ∀ b, g.Owns b → ¬ s.Fresh b := fun b hb fresh =>
    fresh.not_finished (finished b hb)
  have told := fun b hb => accounts.finished b hb (finished b hb)
  refine ⟨made, ?_, fun b => ?_, fun b hb => ⟨count_enter (told b hb), count_leave (told b hb)⟩,
    fun u v hu hv => ?_, fun r _ head _ u v => atEdge_of_visit⟩
  · rw [pending_eq_zero (run.invariant hg) idle entered, pending_initial hg] at work
    exact work
  · split
    next hb => exact told b hb
    next foreign => exact accounts.untouched b (.inl foreign)
  · rw [count_visit (told u hu), hg.count_targets hu hv]

theorem nested_accounted : Graph.nested.Reachable ∧
    ∃ rounds s, Rounds Graph.nested (initial Graph.nested) Graph.nested.handles rounds s ∧
      iterationCount rounds = 11 ∧
      (rounds.flatMap Round.calls).count (.visit ⟨0, 1⟩ ⟨0, 2⟩) = 2 := by
  obtain ⟨⟨rounds, s, search⟩, all⟩ := blocks_and_edges_accounted Graph.reachable_nested
  obtain ⟨-, iterations, -, -, visits, -⟩ := all rounds s search
  refine ⟨Graph.reachable_nested, rounds, s, search, iterations, ?_⟩
  exact visits ⟨0, 1⟩ ⟨0, 2⟩ (by decide) (by decide)

end Search
end FlowLoops
