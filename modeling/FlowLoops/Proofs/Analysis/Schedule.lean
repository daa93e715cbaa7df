import FlowLoops.Proofs.Analysis.Outcome
import Mathlib.Algebra.GroupWithZero.Nat
import Mathlib.Data.Set.List
import Mathlib.Logic.Relation

/-! Analyses side by side, in any order of their turns. They share the tags and the log, and what
they give agrees with what the inputs give in sequence. -/

namespace FlowLoops
namespace Run
open Relation

inductive Stage where
  | waiting
  | loaded (g : Graph)
  | ended (result : Except Failure Report)

namespace Stage

def ofLoad : Except Failure Graph → Stage
  | .error e => ended (.error e)
  | .ok g => loaded g

def left : Stage → Nat
  | waiting => 2
  | loaded _ => 1
  | ended _ => 0

end Stage

structure Task where
  path : Path
  stage : Stage

structure Pool where
  run : Run
  tasks : List Task

namespace Pool

def start (run : Run) (inputs : List Path) : Pool := ⟨run, inputs.map (⟨·, .waiting⟩)⟩

/-- One analysis takes a turn, whichever it is. Its graph draws the tag that is next just then, and
nothing else that loading does bears on the other analyses. -/
inductive Step (access : Access) : Pool → Pool → Prop where
  | load (run : Run) (front rest : List Task) (path : Path) :
    Step access ⟨run, front ++ ⟨path, .waiting⟩ :: rest⟩
      ⟨(run.load access path).1, front ++ ⟨path, .ofLoad (run.load access path).2⟩ :: rest⟩
  | examine (run : Run) (front rest : List Task) (path : Path) (g : Graph) :
    Step access ⟨run, front ++ ⟨path, .loaded g⟩ :: rest⟩
      ⟨(run.examine path g).1, front ++ ⟨path, .ended (run.examine path g).2⟩ :: rest⟩

/-- What can be collected: all reports, in the order of the inputs, or the error of an analysis
that failed, whichever it is and whether or not the others have ended. -/
inductive Collects (p : Pool) : Except Failure (List Report) → Prop where
  | reports {rs : List Report} (all : p.tasks.map (·.stage) = rs.map fun r => .ended (.ok r)) :
    Collects p (.ok rs)
  | failure {path : Path} {e : Failure} (failed : ⟨path, .ended (.error e)⟩ ∈ p.tasks) :
    Collects p (.error e)

end Pool

def SideBySide (access : Access) (run : Run) (inputs : List Path)
    (result : Except Failure (List Report)) : Prop :=
  ∃ p, ReflTransGen (Pool.Step access) (.start run inputs) p ∧ p.Collects result

variable {access : Access} {path : Path} {run : Run} {p q : Pool} {inputs : List Path}

inductive Task.Due (access : Access) : Task → Prop where
  | waiting (path : Path) : Due access ⟨path, .waiting⟩
  | loaded {path : Path} {g : Graph} (tag : Nat)
    (due : outcome access path tag =
      (g.loops.mapError .fault).map fun loops => ⟨path.display, g, loops⟩) :
    Due access ⟨path, .loaded g⟩
  | ended {path : Path} {result : Except Failure Report} (tag : Nat)
    (due : outcome access path tag = result) : Due access ⟨path, .ended result⟩

theorem due_load (access : Access) (run : Run) (path : Path) :
    Task.Due access ⟨path, .ofLoad (run.load access path).2⟩ := by
  have shown := reportOn_snd run access path
  rw [reportOn] at shown
  generalize run.load access path = loaded at shown ⊢
  obtain ⟨next, e | g⟩ := loaded
  · exact .ended run.nextTag shown.symm
  · exact .loaded run.nextTag (shown.symm.trans (examine_snd next path g))

theorem due_examine {g : Graph} (run : Run) (due : Task.Due access ⟨path, .loaded g⟩) :
    Task.Due access ⟨path, .ended (run.examine path g).2⟩ := by
  cases due with
  | loaded tag due => exact .ended tag (due.trans (examine_snd run path g).symm)

namespace Pool

structure Due (access : Access) (inputs : List Path) (p : Pool) : Prop where
  paths : p.tasks.map (·.path) = inputs
  tasks : ∀ t ∈ p.tasks, t.Due access

theorem due_start (access : Access) (run : Run) (inputs : List Path) :
    (start run inputs).Due access inputs := by
  refine ⟨by rw [start, List.map_map]; exact List.map_id inputs, fun t ht => ?_⟩
  obtain ⟨path, -, rfl⟩ := List.mem_map.mp ht
  exact .waiting path

theorem Due.replace {front rest : List Task} {before after : Stage} {next : Run}
    (due : Due access inputs ⟨run, front ++ ⟨path, before⟩ :: rest⟩)
    (here : Task.Due access ⟨path, after⟩) :
    Due access inputs ⟨next, front ++ ⟨path, after⟩ :: rest⟩ := by
  refine ⟨?_, fun t ht => ?_⟩
  · rw [← due.paths, List.map_append, List.map_append, List.map_cons, List.map_cons]
  · rcases List.mem_append.mp ht with inside | inside
    · exact due.tasks t (List.mem_append_left _ inside)
    · rcases List.mem_cons.mp inside with rfl | inside
      · exact here
      · exact due.tasks t (List.mem_append_right _ (List.mem_cons_of_mem _ inside))

theorem Step.due (step : Step access p q) (due : p.Due access inputs) : q.Due access inputs := by
  cases step with
  | load run front rest path => exact due.replace (due_load access run path)
  | examine run front rest path g =>
    exact due.replace (due_examine run (due.tasks _ (List.mem_append_right _ List.mem_cons_self)))

theorem due_of_steps (steps : ReflTransGen (Step access) (start run inputs) p) :
    p.Due access inputs := by
  induction steps with
  | refl => exact due_start access run inputs
  | tail _ step ih => exact step.due ih

def left (p : Pool) : Nat := (p.tasks.map (·.stage.left)).sum

theorem left_replace (front rest : List Task) (path : Path) (stage : Stage) (run : Run) :
    (Pool.mk run (front ++ ⟨path, stage⟩ :: rest)).left =
      (Pool.mk run (front ++ rest)).left + stage.left := by
  simp only [left, List.map_append, List.map_cons, List.sum_append, List.sum_cons]
  omega

theorem Step.left_lt (step : Step access p q) : q.left < p.left := by
  cases step with
  | load run front rest path =>
    have fewer : (Stage.ofLoad (run.load access path).2).left < Stage.waiting.left := by
      cases (run.load access path).2 with
      | error e => exact Nat.zero_lt_two
      | ok g => exact Nat.one_lt_two
    rw [left_replace, left_replace]
    exact Nat.add_lt_add_left fewer _
  | examine run front rest path g =>
    rw [left_replace, left_replace]
    exact Nat.lt_succ_self _

theorem step_wellFounded (access : Access) : WellFounded fun q p : Pool => Step access p q :=
  Subrelation.wf Step.left_lt (InvImage.wf left Nat.lt_wfRel.wf)

theorem step_or_collects (access : Access) (p : Pool) :
    (∃ q, Step access p q) ∨ ∃ result, p.Collects result := by
  obtain ⟨run, tasks⟩ := p
  -- a task without a report can take its turn, or has failed, and then its error can be collected
  by_cases all : ∀ t ∈ tasks, ∃ r : Report, .ended (.ok r) = t.stage
  · have stages : ∀ stage ∈ tasks.map (·.stage), ∃ r : Report, .ended (.ok r) = stage :=
      List.forall_mem_map.mpr all
    obtain ⟨rs, listed⟩ := (Set.range_list_map fun r : Report => Stage.ended (.ok r)).ge stages
    exact .inr ⟨_, .reports listed.symm⟩
  · push Not at all
    obtain ⟨⟨path, stage⟩, ht, without⟩ := all
    obtain ⟨front, rest, rfl⟩ := List.append_of_mem ht
    match stage, without with
    | .waiting, _ => exact .inl ⟨_, .load run front rest path⟩
    | .loaded g, _ => exact .inl ⟨_, .examine run front rest path g⟩
    | .ended (.error e), _ => exact .inr ⟨_, .failure ht⟩
    | .ended (.ok r), without => exact absurd rfl (without r)

theorem steps_reportOn (access : Access) (run : Run) (front rest : List Task) (path : Path) :
    ReflTransGen (Step access) ⟨run, front ++ ⟨path, .waiting⟩ :: rest⟩
      ⟨(run.reportOn access path).1,
        front ++ ⟨path, .ended (run.reportOn access path).2⟩ :: rest⟩ := by
  have loaded : Step access _ _ := .load run front rest path
  rw [reportOn]
  generalize run.load access path = outcome at loaded ⊢
  obtain ⟨next, e | g⟩ := outcome
  · exact .single loaded
  · exact .tail (.single loaded) (.examine next front rest path g)

theorem steps_analyzeEach (access : Access) (run : Run) (front : List Task) (inputs : List Path) :
    ∃ tasks, tasks.map (·.stage) = (analyzeEach access run inputs).2.map .ended ∧
      ReflTransGen (Step access) ⟨run, front ++ inputs.map (⟨·, .waiting⟩)⟩
        ⟨(analyzeEach access run inputs).1, front ++ tasks⟩ := by
  induction inputs generalizing run front with
  | nil => exact ⟨[], rfl, .refl⟩
  | cons path rest ih =>
    have first := steps_reportOn access run front (rest.map (⟨·, .waiting⟩)) path
    obtain ⟨tasks, stages, others⟩ := ih (run.reportOn access path).1
      (front ++ [⟨path, .ended (run.reportOn access path).2⟩])
    rw [List.append_assoc, List.append_assoc] at others
    refine ⟨⟨path, .ended (run.reportOn access path).2⟩ :: tasks, ?_, first.trans others⟩
    rw [List.map_cons, stages]
    rfl

end Pool

theorem mapM_id_cases {ε α : Type} (results : List (Except ε α)) :
    (∃ l : List α, results = l.map .ok ∧ results.mapM id = .ok l) ∨
      ∃ e, .error e ∈ results ∧ results.mapM id = .error e := by
  induction results with
  | nil => exact .inl ⟨[], rfl, rfl⟩
  | cons first rest ih =>
    rw [List.mapM_cons]
    cases first with
    | error e => exact .inr ⟨e, List.mem_cons_self, rfl⟩
    | ok a =>
      rcases ih with ⟨l, rfl, mapped⟩ | ⟨e, he, mapped⟩
      · exact .inl ⟨a :: l, rfl, by rw [mapped]; rfl⟩
      · exact .inr ⟨e, List.mem_cons_of_mem _ he, by rw [mapped]; rfl⟩

theorem andThen_announce_snd (x : Run × Except Failure (List Report)) :
    (andThen x announce).2 = x.2 := by
  obtain ⟨run, e | reports⟩ := x <;> rfl

theorem sideBySide_analyze (access : Access) (run : Run) (inputs : List Path) :
    SideBySide access run inputs (run.analyze access inputs true).2 := by
  obtain ⟨tasks, stages, steps⟩ := Pool.steps_analyzeEach access run [] inputs
  refine ⟨_, steps, ?_⟩
  rw [analyze, andThen_announce_snd]
  show Pool.Collects _ ((analyzeEach access run inputs).2.mapM id)
  rcases mapM_id_cases (analyzeEach access run inputs).2 with
    ⟨rs, each, mapped⟩ | ⟨e, he, mapped⟩
  · rw [mapped]
    refine .reports ?_
    rw [List.nil_append, stages, each, List.map_map]
    rfl
  · rw [mapped]
    have ended : Stage.ended (.error e) ∈ tasks.map (·.stage) := by
      rw [stages]
      exact List.mem_map_of_mem he
    obtain ⟨⟨path, stage⟩, ht, rfl⟩ := List.mem_map.mp ended
    exact .failure ht

inductive Settled (access : Access) (inputs : List Path) : Except Failure (List Report) → Prop where
  | reports {rs : List Report} (each : ReportsOn access inputs rs) : Settled access inputs (.ok rs)
  | failure {path : Path} {e : AnalysisError} (listed : path ∈ inputs)
    (fails : Fails access path e) : Settled access inputs (.error (.reported e))

theorem reportsOn_of_due {tasks : List Task} {rs : List Report}
    (due : ∀ t ∈ tasks, t.Due access)
    (ended : tasks.map (·.stage) = rs.map fun r => .ended (.ok r)) :
    ReportsOn access (tasks.map (·.path)) rs := by
  induction tasks generalizing rs with
  | nil =>
    rw [List.map_nil, eq_comm, List.map_eq_nil_iff] at ended
    rw [ended]
    exact .nil
  | cons t others ih =>
    obtain ⟨path, stage⟩ := t
    cases rs with
    | nil => cases ended
    | cons r rs =>
      rw [List.map_cons, List.map_cons, List.cons.injEq] at ended
      obtain ⟨rfl, ended⟩ := ended
      rcases due _ List.mem_cons_self with _ | _ | ⟨tag, made⟩
      exact .cons ⟨tag, made⟩ (ih (fun t ht => due t (List.mem_cons_of_mem _ ht)) ended)

theorem Pool.Collects.settled {result : Except Failure (List Report)}
    (collects : p.Collects result) (due : p.Due access inputs) :
    Settled access inputs result := by
  cases collects with
  | reports all =>
    rw [← due.paths]
    exact .reports (reportsOn_of_due due.tasks all)
  | @failure path e failed =>
    rcases due.tasks _ failed with _ | _ | ⟨tag, made⟩
    obtain ⟨e, rfl, fails⟩ := fails_of_outcome made
    have listed : path ∈ p.tasks.map (·.path) := List.mem_map_of_mem failed
    exact .failure (due.paths ▸ listed) fails

theorem settled_sequential (run : Run) (access : Access) (inputs : List Path) :
    Settled access inputs (run.analyze access inputs false).2 := by
  rw [analyze, andThen_announce_snd, if_neg Bool.false_ne_true]
  rcases analyzeInOrder_snd access run inputs with
    ⟨rs, made, each⟩ | ⟨front, path, rest, e, rfl, -, fails, made⟩
  · rw [made]
    exact .reports each
  · rw [made]
    exact .failure (List.mem_append_right _ List.mem_cons_self) fails

namespace Settled
variable {result : Except Failure (List Report)}

theorem succeeds {rs : List Report} (settled : Settled access inputs (.ok rs)) :
    ∀ p ∈ inputs, Succeeds access p := by
  cases settled with
  | reports each => exact each.succeeds

theorem of_fails {e : AnalysisError} (settled : Settled access inputs result)
    (listed : path ∈ inputs) (fails : Fails access path e) :
    ∃ p ∈ inputs, ∃ e, Fails access p e ∧ result = .error (.reported e) := by
  cases settled with
  | reports each => exact absurd (each.succeeds path listed) fails.not_succeeds
  | failure listed' fails' => exact ⟨_, listed', _, fails', rfl⟩

theorem of_fails_alone {e : AnalysisError} (settled : Settled access inputs result)
    (listed : path ∈ inputs) (fails : Fails access path e)
    (others : ∀ p ∈ inputs, p ≠ path → Succeeds access p) : result = .error (.reported e) := by
  obtain ⟨p, hp, e', fails', rfl⟩ := settled.of_fails listed fails
  obtain rfl : p = path := by
    by_contra other
    exact fails'.not_succeeds (others p hp other)
  rw [fails'.unique fails]

theorem exists_ok (settled : Settled access inputs result) {rs : List Report}
    (settled' : Settled access inputs (.ok rs)) : ∃ ks, result = .ok ks := by
  cases settled with
  | reports each => exact ⟨_, rfl⟩
  | failure listed fails => exact absurd (settled'.succeeds _ listed) fails.not_succeeds

theorem agree {rs ks : List Report} (settled : Settled access inputs (.ok rs))
    (settled' : Settled access inputs (.ok ks)) :
    rs.map (·.name) = inputs.map (·.display) ∧ List.Forall₂ Report.Agrees rs ks ∧
      ∀ f, ∃ s, Report.render rs f = .ok s ∧ Report.render ks f = .ok s := by
  cases settled with
  | reports each =>
    cases settled' with
    | reports each' =>
      obtain ⟨names, alike⟩ := each.agree each'
      refine ⟨names, alike.imp fun r k both => both.1, fun f => ?_⟩
      obtain ⟨s, rendered⟩ := Report.exists_render each.owning f
      exact ⟨s, rendered, (Report.render_congr alike f).symm.trans rendered⟩

end Settled

/-- Side by side, in whatever order the analyses take their turns, the inputs come to an end, and
to one that agrees with what they give in sequence: reports that differ in tags alone, or the error
of an input that fails. -/
theorem side_by_side_agrees (access : Access) (inputs : List Path) (run run' : Run) :
    SideBySide access run inputs (run.analyze access inputs true).2 ∧
    (WellFounded fun q p : Pool => Pool.Step access p q) ∧
    (∀ p : Pool, (∃ q, Pool.Step access p q) ∨ ∃ result, p.Collects result) ∧
    (∀ path, Succeeds access path ∨ ∃ e, Fails access path e) ∧
    ∀ result, SideBySide access run inputs result →
      ((∃ rs, result = .ok rs) ↔ ∃ ks, (run'.analyze access inputs false).2 = .ok ks) ∧
      (∀ rs ks, result = .ok rs → (run'.analyze access inputs false).2 = .ok ks →
        rs.map (·.name) = inputs.map (·.display) ∧ List.Forall₂ Report.Agrees rs ks ∧
          ∀ f, ∃ s, Report.render rs f = .ok s ∧ Report.render ks f = .ok s) ∧
      (∀ path ∈ inputs, ∀ e, Fails access path e →
        ∃ p ∈ inputs, ∃ e, Fails access p e ∧ result = .error (.reported e)) ∧
      (∀ path ∈ inputs, ∀ e, Fails access path e →
        (∀ p ∈ inputs, p ≠ path → Succeeds access p) →
          result = .error (.reported e) ∧
            (run'.analyze access inputs false).2 = .error (.reported e)) := by
  refine ⟨sideBySide_analyze access run inputs, Pool.step_wellFounded access,
    Pool.step_or_collects access, succeeds_or_fails access, ?_⟩
  -- both results are settled by the inputs, and what the inputs settle does not leave a choice
  -- beyond tags, and between the errors of inputs that fail
  rintro result ⟨p, steps, collects⟩
  have settled := collects.settled (Pool.due_of_steps steps)
  have settled' := settled_sequential run' access inputs
  refine ⟨⟨?_, ?_⟩, ?_, ?_, ?_⟩
  · rintro ⟨rs, rfl⟩
    exact settled'.exists_ok settled
  · rintro ⟨ks, made⟩
    rw [made] at settled'
    exact settled.exists_ok settled'
  · rintro rs ks rfl made
    rw [made] at settled'
    exact settled.agree settled'
  · exact fun path listed e fails => settled.of_fails listed fails
  · exact fun path listed e fails others =>
      ⟨settled.of_fails_alone listed fails others, settled'.of_fails_alone listed fails others⟩

def sameFile : Access := fun _ =>
  .ok (Text.toBytes
    "\x7b\"blocks\":[\x7b\"label\":\"a\"\x7d],\"edges\":[\x7b\"from\":\"a\",\"to\":\"a\"\x7d]\x7d")

theorem exists_of_map_eq_ok {ε α β : Type} {x : Except ε α} {f : α → β} {b : β}
    (mapped : x.map f = .ok b) : ∃ a, x = .ok a ∧ f a = b := by
  cases x with
  | error e => cases mapped
  | ok a => exact ⟨a, rfl, Except.ok.inj mapped⟩

theorem side_by_side_backwards :
    ∃ rs ks, SideBySide sameFile (.start none true) [.ofString "a", .ofString "b"] (.ok rs) ∧
      ((start none true).analyze sameFile [.ofString "a", .ofString "b"] false).2 = .ok ks ∧
      rs.map (·.graph.tag) = [1, 0] ∧ ks.map (·.graph.tag) = [0, 1] ∧
      List.Forall₂ Report.Agrees rs ks := by
  have b_first : ((start none true).reportOn sameFile (.ofString "b")).2.map (·.graph.tag) =
      .ok 0 := by
    decide +kernel
  have a_next : (((start none true).reportOn sameFile (.ofString "b")).1.reportOn sameFile
      (.ofString "a")).2.map (·.graph.tag) = .ok 1 := by
    decide +kernel
  have in_order : ((start none true).analyze sameFile [.ofString "a", .ofString "b"] false).2.map
      (List.map (·.graph.tag)) = .ok [0, 1] := by
    decide +kernel
  obtain ⟨k, made_k, tag_k⟩ := exists_of_map_eq_ok b_first
  obtain ⟨r, made_r, tag_r⟩ := exists_of_map_eq_ok a_next
  obtain ⟨ks, made, tags⟩ := exists_of_map_eq_ok in_order
  have steps := (Pool.steps_reportOn sameFile (start none true) [⟨.ofString "a", .waiting⟩] []
    (.ofString "b")).trans (Pool.steps_reportOn sameFile _ [] _ (.ofString "a"))
  rw [made_k, made_r] at steps
  have backwards : SideBySide sameFile (start none true) [.ofString "a", .ofString "b"]
      (.ok [r, k]) := ⟨_, steps, .reports rfl⟩
  have agree := (side_by_side_agrees sameFile [.ofString "a", .ofString "b"] (start none true)
    (start none true)).2.2.2.2 _ backwards
  exact ⟨[r, k], ks, backwards, made, by rw [List.map_cons, List.map_cons, tag_r, tag_k]; rfl, tags,
    (agree.2.1 _ _ rfl made).2.1⟩

end Run
end FlowLoops
