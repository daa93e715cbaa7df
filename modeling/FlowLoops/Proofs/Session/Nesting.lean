import FlowLoops.Proofs.Session.Ownership
import FlowLoops.Proofs.Session.Tracing
import Mathlib.Data.List.ReduceOption

/-! Tracers nest as long as the one opened last is closed first. Their levels then count up from the
depth before the first, and closing any other than the last one is a fault. -/

namespace FlowLoops
namespace Session

def openTracers (s : Session) : List Tracer := s.tracers.toList.reduceOption

def Panics (s : Session) (step : Step) : Prop :=
  ∃ found expected, (s.perform step).2 = .error (.fault (.traceDepth found expected))

/-- A step that closes no tracer while one opened after it is open. -/
def ClosesLast (s : Session) : Step → Prop
  | .closeTracer k =>
    s.tracers[k]?.join ≠ none → ∀ later ∈ s.tracers.toList.drop (k + 1), later = none
  | _ => True

def Throughout (P : Session → Step → Prop) (s : Session) : List Step → Prop
  | [] => True
  | step :: rest => P s step ∧ (s.perform step).1.Throughout P rest

def Records (s : Session) (step : Step) (lines : List Record) : Prop :=
  (s.perform step).1.trace.records = (s.trace.emitAll lines).records

structure Nested (d : Nat) (s : Session) : Prop where
  traced : s.trace.silent = false
  levels : ∀ i t, s.openTracers[i]? = some t → t.level = some (d + i)
  depth : s.trace.depth = d + s.openTracers.length

variable {s s' : Session} {step : Step} {steps early : List Step} {d k : Nat} {t : Tracer}

theorem nested_of_closed (traced : s.trace.silent = false) (closed : s.openTracers = []) :
    Nested s.trace.depth s := by
  refine ⟨traced, fun i t there => ?_, ?_⟩
  · rw [closed] at there
    cases there
  · rw [closed]
    rfl

theorem Nested.calm (nested : Nested d s) (calm : Calm s s') : Nested d s' := by
  obtain ⟨lines, trace⟩ := calm.trace
  have same : s'.openTracers = s.openTracers := congrArg (·.toList.reduceOption) calm.tracers
  refine ⟨?_, ?_, ?_⟩
  · rw [trace, Trace.silent_emitAll]
    exact nested.traced
  · rw [same]
    exact nested.levels
  · rw [trace, Trace.depth_emitAll, same]
    exact nested.depth

section Tables
variable {before after : List Tracer}

theorem reduceOption_eq_nil {l : List (Option Tracer)} :
    l.reduceOption = [] ↔ ∀ o ∈ l, o = none := by
  rw [List.reduceOption_eq_nil_iff]
  constructor
  · rintro ⟨n, rfl⟩
    exact fun o ho => List.eq_of_mem_replicate ho
  · exact fun each => ⟨_, List.eq_replicate_of_mem each⟩

theorem openTracers_push (tracers : s'.tracers = s.tracers.push (some t)) :
    s'.openTracers = s.openTracers ++ [t] := by
  rw [openTracers, tracers, Array.toList_push, List.reduceOption_append]
  rfl

theorem exists_split (there : s.tracers[k]? = some (some t)) :
    ∃ before after, s.openTracers = before ++ t :: after ∧
      (after = [] ↔ ∀ later ∈ s.tracers.toList.drop (k + 1), later = none) ∧
      ∀ s' : Session, s'.tracers = s.tracers.setIfInBounds k none →
        s'.openTracers = before ++ after := by
  rw [← Array.getElem?_toList] at there
  obtain ⟨inside, at_k⟩ := List.getElem?_eq_some_iff.mp there
  obtain ⟨before, after, split, rfl, set⟩ := @List.exists_of_set _ _ none _ inside
  rw [at_k] at split
  refine ⟨before.reduceOption, after.reduceOption, ?_, ?_, fun s' tracers => ?_⟩
  · rw [openTracers, split, List.reduceOption_append, List.reduceOption_cons_of_some]
  · rw [reduceOption_eq_nil, split, List.drop_append, List.drop_of_length_le (Nat.le_succ _)]
    simp
  · rw [openTracers, tracers, Array.toList_setIfInBounds, set, List.reduceOption_append,
      List.reduceOption_cons_of_none]

theorem Nested.concat (nested : Nested d s) (opened : s'.openTracers = s.openTracers ++ [t])
    (level : t.level = some s.trace.depth) (traced : s'.trace.silent = false)
    (depth : s'.trace.depth = s.trace.depth + 1) : Nested d s' := by
  refine ⟨traced, fun i u there => ?_, ?_⟩
  · rw [opened] at there
    rcases Nat.lt_trichotomy i s.openTracers.length with before | rfl | beyond
    · rw [List.getElem?_append_left before] at there
      exact nested.levels i u there
    · rw [List.getElem?_concat_length] at there
      obtain rfl := Option.some.inj there
      rw [level, nested.depth]
    · have outside : (s.openTracers ++ [t]).length ≤ i := by
        rw [List.length_append]
        exact beyond
      rw [List.getElem?_eq_none outside] at there
      cases there
  · rw [opened, List.length_append, depth, nested.depth]
    rfl

theorem Nested.level_of_split (nested : Nested d s) (split : s.openTracers = before ++ t :: after) :
    t.level = some (d + before.length) := by
  apply nested.levels
  rw [split, List.getElem?_append_right (Nat.le_refl _), Nat.sub_self]
  rfl

theorem Nested.depth_eq_iff (nested : Nested d s) (split : s.openTracers = before ++ t :: after) :
    s.trace.depth = d + before.length + 1 ↔ after = [] := by
  rw [nested.depth, split, List.length_append, List.length_cons, ← List.length_eq_zero_iff]
  omega

theorem Nested.dropLast (nested : Nested d s) (split : s.openTracers = s'.openTracers ++ [t])
    (traced : s'.trace.silent = false) (depth : s'.trace.depth = d + s'.openTracers.length) :
    Nested d s' := by
  refine ⟨traced, fun i u there => ?_, depth⟩
  apply nested.levels
  rw [split, List.getElem?_append_left (List.getElem?_eq_some_iff.mp there).1]
  exact there

end Tables

section Steps

theorem silent_leave (trace : Trace) (t : Tracer) :
    (trace.leave t).1.silent = trace.silent := by
  obtain ⟨title, _ | level⟩ := t
  · rfl
  · rw [Trace.leave_some_fst]
    exact Trace.silent_emitAll

theorem traced_perform (traced : s.trace.silent = false) (step : Step) :
    (s.perform step).1.trace.silent = false := by
  have tracing := tracing_perform traced step
  generalize s.perform step = r at tracing ⊢
  cases tracing with
  | quiet quiet _ =>
    obtain ⟨lines, trace⟩ := quiet.calm.trace
    rw [trace, Trace.silent_emitAll, traced]
  | opens title => exact Trace.silent_emitAll.trans traced
  | closes there =>
    rw [answerWith_fst]
    exact (silent_leave _ _).trans traced

theorem closesLast_iff (there : s.tracers[k]? = some (some t)) :
    s.ClosesLast (.closeTracer k) ↔ ∀ later ∈ s.tracers.toList.drop (k + 1), later = none := by
  have open_k : s.tracers[k]?.join ≠ none := by
    rw [there]
    exact Option.some_ne_none t
  exact ⟨fun last => last open_k, fun none_after _ => none_after⟩

theorem Nested.panics_iff (nested : Nested d s) (step : Step) :
    s.Panics step ↔ ¬ s.ClosesLast step := by
  have tracing := tracing_perform nested.traced step
  unfold Panics
  generalize s.perform step = r at tracing ⊢
  cases tracing with
  | quiet quiet closes =>
    refine iff_of_false (fun ⟨found, expected, h⟩ => quiet.spares found expected h) ?_
    cases step with
    | closeTracer k => exact fun out => out fun there => absurd (closes k rfl) there
    | _ => exact fun out => out trivial
  | opens title =>
    refine iff_of_false ?_ fun out => out trivial
    rintro ⟨found, expected, h⟩
    cases h
  | @closes k t there =>
    -- the depth found exceeds the level by one for this tracer and one for each after it
    obtain ⟨before, after, split, later, -⟩ := exists_split there
    have depth := nested.depth_eq_iff split
    rw [closesLast_iff there, ← later, ← depth, Trace.leave, nested.level_of_split split]
    dsimp only
    split
    next inside =>
      refine iff_of_false ?_ fun out => out inside
      rintro ⟨found, expected, h⟩
      cases h
    next outside => exact iff_of_true ⟨_, _, rfl⟩ outside

theorem Nested.perform (nested : Nested d s) (last : s.ClosesLast step) :
    Nested d (s.perform step).1 := by
  have tracing := tracing_perform nested.traced step
  have traced := traced_perform nested.traced step
  generalize s.perform step = r at tracing traced ⊢
  cases tracing with
  | quiet quiet _ => exact nested.calm quiet.calm
  | opens title => exact nested.concat (openTracers_push rfl) rfl traced rfl
  | @closes k t there =>
    obtain ⟨before, after, split, later, left⟩ := exists_split there
    rw [closesLast_iff there, ← later] at last
    subst last
    have level := nested.level_of_split split
    rw [answerWith_fst] at traced ⊢
    have closed := left { s with
      trace := (s.trace.leave t).1, tracers := s.tracers.setIfInBounds k none } rfl
    rw [List.append_nil] at closed
    refine nested.dropLast (t := t) ?_ traced ?_
    · rw [closed]
      exact split
    · rw [closed, Trace.leave, level]

end Steps

section Runs

theorem traced_run (traced : s.trace.silent = false) (steps : List Step) :
    (s.run steps).trace.silent = false := by
  induction steps generalizing s with
  | nil => exact traced
  | cons step rest ih => exact ih (traced_perform traced step)

theorem Nested.run (nested : Nested d s) (last : s.Throughout ClosesLast steps)
    (early : List Step) (within : early <+: steps) : Nested d (s.run early) := by
  induction early generalizing s steps with
  | nil => exact nested
  | cons step rest ih =>
    obtain ⟨late, rfl⟩ := within
    exact ih (nested.perform last.1) last.2 ⟨late, rfl⟩

theorem Nested.throughout_iff (nested : Nested d s) (steps : List Step) :
    s.Throughout (fun s step => ¬ s.Panics step) steps ↔ s.Throughout ClosesLast steps := by
  induction steps generalizing s with
  | nil => exact Iff.rfl
  | cons step rest ih =>
    -- the invariant reaches the rest of the run only past a step that keeps to the order
    have here : ¬ s.Panics step ↔ s.ClosesLast step := by
      rw [nested.panics_iff, not_not]
    refine ⟨fun ⟨first, others⟩ => ?_, fun ⟨first, others⟩ => ?_⟩
    · have last := here.mp first
      exact ⟨last, (ih (nested.perform last)).mp others⟩
    · exact ⟨here.mpr first, (ih (nested.perform first)).mpr others⟩

end Runs

section Lines

/-! The lines that tracers are opened and closed with. A tracer keeps its slot and its level until
it is closed. -/

def Keeps (k : Nat) (t : Tracer) (s : Session) : Prop :=
  ∃ slot, s.tracers[k]? = some slot ∧ ∀ u ∈ slot, u = t

theorem Keeps.perform (keeps : Keeps k t s) (traced : s.trace.silent = false) (step : Step) :
    Keeps k t (s.perform step).1 := by
  obtain ⟨slot, at_k, same⟩ := keeps
  have inside : k < s.tracers.size := (Array.getElem?_eq_some_iff.mp at_k).1
  have tracing := tracing_perform traced step
  generalize s.perform step = r at tracing ⊢
  cases tracing with
  | quiet quiet _ =>
    rw [Keeps, quiet.calm.tracers]
    exact ⟨slot, at_k, same⟩
  | opens title =>
    refine ⟨slot, ?_, same⟩
    exact (Array.getElem?_push_lt inside).trans (Array.getElem?_eq_getElem inside ▸ at_k)
  | @closes j u there =>
    rw [answerWith_fst]
    by_cases closed : j = k
    · subst closed
      refine ⟨none, Array.getElem?_setIfInBounds_self_of_lt inside, fun u hu => ?_⟩
      cases hu
    · exact ⟨slot, (Array.getElem?_setIfInBounds_ne closed).trans at_k, same⟩

theorem Keeps.run (keeps : Keeps k t s) (traced : s.trace.silent = false) (steps : List Step) :
    Keeps k t (s.run steps) := by
  induction steps generalizing s with
  | nil => exact keeps
  | cons step rest ih => exact ih (keeps.perform traced step) (traced_perform traced step)

theorem keeps_open (traced : s.trace.silent = false) (title : String) :
    Keeps s.tracers.size ⟨title, some s.trace.depth⟩ (s.perform (.openTracer title)).1 := by
  have entered := @Trace.enter_traced s.trace title traced
  rw [Session.perform, entered]
  refine ⟨_, Array.getElem?_push_size, fun u hu => ?_⟩
  exact (Option.mem_some_iff.mp hu).symm

theorem records_open (traced : s.trace.silent = false) (title : String) :
    s.Records (.openTracer title) [Trace.enterLine s.trace.depth title] := by
  have entered := @Trace.enter_traced s.trace title traced
  rw [Records, Session.perform, entered]
  rfl

theorem Keeps.records_close {title : String} {level : Nat}
    (keeps : Keeps k ⟨title, some level⟩ s) (still : s.tracers[k]?.join ≠ none) :
    s.Records (.closeTracer k) [Trace.leaveLine level title] := by
  obtain ⟨slot, at_k, same⟩ := keeps
  rw [at_k] at still
  obtain ⟨t, rfl⟩ := Option.ne_none_iff_exists'.mp still
  obtain rfl := same t rfl
  rw [Records, Session.perform, withTracer, at_k]
  show (answerWith _ _ _).1.trace.records = _
  rw [answerWith_fst]
  rfl

theorem trace_detect (s : Session) (g : Graph) {next : Session → List Loop → Result}
    (keeps : ∀ s' loops, (next s' loops).1.trace = s'.trace) :
    (s.detect g next).1.trace = (s.trace.detect g).1 := by
  unfold detect
  match s.trace.detect g with
  | (trace, .error fault) => rfl
  | (trace, .ok loops) => exact keeps _ loops

theorem records_detect {i : Nat} {g : Graph} (traced : s.trace.silent = false)
    (there : s.graphs[i]? = some (some g)) (detects : step = .detect i ∨ step = .summary i) :
    s.Records step (Trace.enterLine s.trace.depth (Trace.detectTitle g) ::
      Trace.foundLines s.trace.depth g ++ [Trace.leaveLine s.trace.depth (Trace.detectTitle g)]) := by
  rw [Records, ← Trace.detect_fst traced]
  rcases detects with rfl | rfl
  · rw [Session.perform, withGraph_of_some there, trace_detect]
    exact fun _ _ => rfl
  · rw [Session.perform, withGraph_of_some there, trace_detect]
    exact fun s' loops => congrArg Session.trace (answerWith_fst s' _ _)

end Lines

/-- Whatever the depth at the start and whatever else a session does, no step panics exactly if every
tracer is closed while no later one is open. The depth then always counts the open tracers. A tracer
is opened and closed with lines at one depth, and so is that of a detection. -/
theorem tracers_nest (s : Session) (traced : s.trace.silent = false) (closed : s.openTracers = [])
    (steps : List Step) :
    (s.Throughout (fun s step => ¬ s.Panics step) steps ↔ s.Throughout ClosesLast steps) ∧
    (s.Throughout (fun s step => ¬ s.Panics step) steps →
      (∀ early, early <+: steps →
        (s.run early).trace.depth = s.trace.depth + (s.run early).openTracers.length) ∧
      ((s.run steps).openTracers = [] → (s.run steps).trace.depth = s.trace.depth)) ∧
    (∀ title,
      let before := s.run steps
      let level := before.trace.depth
      let place := before.tracers.size
      (before.perform (.openTracer title)).2 = .ok (.newTracer place) ∧
      before.Records (.openTracer title) [Trace.enterLine level title] ∧
      ∀ rest, let later := (before.perform (.openTracer title)).1.run rest
        later.tracers[place]?.join ≠ none →
          later.Records (.closeTracer place) [Trace.leaveLine level title]) ∧
    ∀ i g step, (s.run steps).graphs[i]? = some (some g) → step = .detect i ∨ step = .summary i →
      let level := (s.run steps).trace.depth
      (s.run steps).Records step (Trace.enterLine level (Trace.detectTitle g) ::
        Trace.foundLines level g ++ [Trace.leaveLine level (Trace.detectTitle g)]) := by
  have nested := nested_of_closed traced closed
  have iff := nested.throughout_iff steps
  have traced' := traced_run traced steps
  refine ⟨iff, fun panic_free => ?_, fun title => ?_, fun i g step there detects => ?_⟩
  · have nests := nested.run (iff.mp panic_free)
    refine ⟨fun early within => (nests early within).depth, fun all_closed => ?_⟩
    rw [(nests steps (List.prefix_refl steps)).depth, all_closed]
    rfl
  · refine ⟨rfl, records_open traced' title, fun rest still => ?_⟩
    have keeps := (keeps_open traced' title).run (traced_perform traced' _) rest
    exact keeps.records_close still
  · exact records_detect traced' there detects

def deep : Session := { start (some .trace) with trace := ⟨some .trace, false, 3, #[]⟩ }

theorem tracers_nest_three_deep :
    (deep.run [.create, .block 0 "a", .edge 0 0 0, .openTracer "outer", .detect 0,
      .openTracer "inner", .event 1 "x", .closeTracer 1, .closeTracer 0]).trace.depth = 3 ∧
    ¬ deep.Throughout (fun s step => ¬ s.Panics step)
      [.openTracer "outer", .openTracer "inner", .closeTracer 0] := by
  have nests := tracers_nest deep rfl rfl
  constructor
  · have last : deep.Throughout ClosesLast [.create, .block 0 "a", .edge 0 0 0,
        .openTracer "outer", .detect 0, .openTracer "inner", .event 1 "x", .closeTracer 1,
        .closeTracer 0] := by
      refine ⟨trivial, trivial, trivial, trivial, trivial, trivial, trivial, fun _ => ?_,
        fun _ => ?_, trivial⟩
      · decide +kernel
      · decide +kernel
    apply ((nests _).2.1 ((nests _).1.mpr last)).2
    decide +kernel
  · intro panic_free
    -- the inner tracer is open when the outer one is closed
    have last := ((nests _).1.mp panic_free).2.2.1 (by decide +kernel)
    revert last
    decide +kernel

end Session
end FlowLoops
