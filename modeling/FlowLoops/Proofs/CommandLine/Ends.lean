import FlowLoops.CommandLine.Execution
import FlowLoops.Proofs.Analysis.Faultless

/-! What a command line can end with. Side by side the inputs are analysed in any order of their
turns, and where no two of them fail the order shows in the log alone. -/

namespace FlowLoops

namespace Run
variable {access : Access} {inputs : List Path} {result result' : Except Failure (List Report)}

/-- No two inputs fail. One that fails may be listed more than once. -/
def AtMostOneFails (access : Access) (inputs : List Path) : Prop :=
  ∀ p ∈ inputs, ∀ q ∈ inputs, ∀ e e', Fails access p e → Fails access q e' → p = q

theorem Settled.cases_of_atMostOneFails (one : AtMostOneFails access inputs)
    (settled : Settled access inputs result) (settled' : Settled access inputs result') :
    (∃ e, result = .error e ∧ result' = .error e) ∨
      ∃ rs ks, result = .ok rs ∧ result' = .ok ks ∧
        ∀ f, Report.render rs f = Report.render ks f := by
  cases result with
  | ok rs =>
    obtain ⟨ks, rfl⟩ := settled'.exists_ok settled
    obtain ⟨-, -, renders⟩ := settled.agree settled'
    refine .inr ⟨rs, ks, rfl, rfl, fun f => ?_⟩
    obtain ⟨s, rendered, rendered'⟩ := renders f
    exact rendered.trans rendered'.symm
  | error e =>
    rcases settled with _ | @⟨p, e, hp, fails⟩
    obtain ⟨q, hq, e', fails', rfl⟩ := settled'.of_fails hp fails
    obtain rfl := one p hp q hq e e' fails fails'
    exact .inl ⟨_, rfl, by rw [fails.unique fails']⟩

theorem Settled.exists_error (settled : Settled access inputs result)
    (settled' : Settled access inputs result') {e : AnalysisError}
    (failed : result = .error (.reported e)) :
    (∃ p ∈ inputs, Fails access p e) ∧ ∃ e', result' = .error (.reported e') := by
  subst failed
  cases settled with
  | @failure p _ listed fails =>
    obtain ⟨_, _, e', _, failed⟩ := settled'.of_fails listed fails
    exact ⟨⟨p, listed, fails⟩, e', failed⟩

theorem Settled.exists_content (settled : Settled access inputs result)
    (settled' : Settled access inputs result') (fine : ¬ ∃ e, result = .error (.reported e))
    (f : Format) : ∃ rs ks content, result = .ok rs ∧ result' = .ok ks ∧
      Report.render rs f = .ok content ∧ Report.render ks f = .ok content := by
  cases settled with
  | failure => exact absurd ⟨_, rfl⟩ fine
  | @reports rs each =>
    obtain ⟨ks, rfl⟩ := settled'.exists_ok (.reports each)
    obtain ⟨-, -, renders⟩ := (Settled.reports each).agree settled'
    obtain ⟨content, rendered, rendered'⟩ := renders f
    exact ⟨rs, ks, content, rfl, rfl, rendered, rendered'⟩

end Run

namespace CommandLine
open Relation Run

def Request.finish (r : Request) (files : Files) (x : Run × Except Failure (List Report)) :
    Outcome :=
  r.deliver files (andThen x r.conclude)

variable {r : Request} {files : Files} {setting : Option String} {arguments : List String}

theorem execute_eq_finish (r : Request) (files : Files) (parallel : Bool) :
    r.execute files parallel =
      r.finish files ((r.begin parallel).analyze files.read r.inputs parallel) := rfl

structure Outcome.Agrees (o o' : Outcome) : Prop where
  code : o.code = o'.code
  stdout : o.stdout = o'.stdout
  stderr : o.stderr = o'.stderr
  files : o.files = o'.files

/-- What a command line ends with: what is computed, and side by side what any order of the turns
gives. -/
inductive Ends (files : Files) (setting : Option String) (arguments : List String) :
    Outcome → Prop where
  | executed : Ends files setting arguments (execute files setting arguments)
  | sideBySide {r : Request} {p : Pool} {result : Except Failure (List Report)}
    (accepted : Intent.ofArguments arguments = .run r) (parallel : asksParallel setting = true)
    (steps : ReflTransGen (Pool.Step files.read) (.start (r.begin true) r.inputs) p)
    (collects : p.Collects result) :
    Ends files setting arguments (r.finish files (andThen (p.run, result) announce))

theorem execute_of_accepted (accepted : Intent.ofArguments arguments = .run r) (files : Files)
    (setting : Option String) :
    execute files setting arguments = r.execute files (asksParallel setting) := by
  rw [execute, accepted]

/-- What a command line ends with comes of what its inputs call for, which another command line with
the same inputs and verbosity can meet with as well. -/
theorem Ends.exists_finish {o : Outcome} (ends : Ends files setting arguments o)
    (accepted : Intent.ofArguments arguments = .run r) :
    ∃ x, Settled files.read r.inputs x.2 ∧ o = r.finish files x ∧
      (asksParallel setting = false → x = (r.begin false).analyze files.read r.inputs false) ∧
      ∀ (arguments' : List String) (r' : Request), Intent.ofArguments arguments' = .run r' →
        r'.verbosity = r.verbosity → r'.inputs = r.inputs →
          Ends files setting arguments' (r'.finish files x) := by
  cases ends with
  | executed =>
    rw [execute_of_accepted accepted, execute_eq_finish]
    refine ⟨_, settled_analyze _ _ _ _, rfl, fun sequential => by rw [sequential], ?_⟩
    intro arguments' r' accepted' verbosity inputs
    have begun : r'.begin = r.begin := by
      unfold Request.begin
      rw [verbosity]
    have same : Ends files setting arguments' (execute files setting arguments') := .executed
    rwa [execute_of_accepted accepted', execute_eq_finish, begun, inputs] at same
  | @sideBySide r₀ pool result accepted₀ parallel steps collects =>
    obtain rfl := Intent.run.inj (accepted₀.symm.trans accepted)
    refine ⟨_, ?_, rfl, fun sequential => absurd sequential (by simp [parallel]), ?_⟩
    · rw [andThen_announce_snd]
      exact collects.settled (Pool.due_of_steps steps)
    · intro arguments' r' accepted' verbosity inputs
      have begun : r'.begin true = r₀.begin true := by
        unfold Request.begin
        rw [verbosity]
      rw [← begun, ← inputs] at steps
      exact .sideBySide accepted' parallel steps collects

theorem Ends.settled {o : Outcome} (ends : Ends files setting arguments o)
    (accepted : Intent.ofArguments arguments = .run r) :
    ∃ x, Settled files.read r.inputs x.2 ∧ o = r.finish files x := by
  obtain ⟨x, settled, same, -⟩ := ends.exists_finish accepted
  exact ⟨x, settled, same⟩

theorem exists_deliver_eq (r : Request) (files : Files) (result : Except Failure String) :
    ∃ (o : Outcome) (lines : List Record), ∀ run : Run, r.deliver files (run, result) =
      { o with records := (run.trace.emitAll lines).records } := by
  cases result with
  | error e => exact ⟨⟨1, "", failureText e.text, #[], files⟩, [], fun _ => rfl⟩
  | ok content =>
    cases asked : r.output with
    | none =>
      refine ⟨⟨0, content ++ "\n", "", #[], files⟩, [], fun run => ?_⟩
      simp only [Request.deliver, asked]
      rfl
    | some path =>
      cases written : files.write path (Text.toBytes content) with
      | error e =>
        refine ⟨⟨1, "", failureText e.text, #[], files⟩, [], fun run => ?_⟩
        simp only [Request.deliver, asked, written]
        rfl
      | ok after =>
        refine ⟨⟨0, "", "", #[], after⟩, [⟨.info, writtenText path⟩], fun run => ?_⟩
        simp only [Request.deliver, asked, written]
        rfl

theorem deliver_agrees {x y : Run × Except Failure String} (same : x.2 = y.2) (r : Request)
    (files : Files) : (r.deliver files x).Agrees (r.deliver files y) := by
  obtain ⟨run, result⟩ := x
  obtain ⟨run', result'⟩ := y
  obtain rfl : result = result' := same
  obtain ⟨o, lines, delivered⟩ := exists_deliver_eq r files result
  rw [delivered, delivered]
  exact ⟨rfl, rfl, rfl, rfl⟩

theorem finish_agrees {x y : Run × Except Failure (List Report)}
    (one : AtMostOneFails files.read r.inputs) (settled : Settled files.read r.inputs x.2)
    (settled' : Settled files.read r.inputs y.2) :
    (r.finish files x).Agrees (r.finish files y) := by
  apply deliver_agrees
  obtain ⟨run, result⟩ := x
  obtain ⟨run', result'⟩ := y
  rcases settled.cases_of_atMostOneFails one settled' with ⟨e, rfl, rfl⟩ | ⟨rs, ks, rfl, rfl, alike⟩
  · rfl
  · simp only [andThen, Request.conclude, alike]

def selfLoop : Files := Files.empty.create (.ofString "a") (.file (Text.toBytes
  "\x7b\"blocks\":[\x7b\"label\":\"a\"\x7d],\"edges\":[\x7b\"from\":\"a\",\"to\":\"a\"\x7d]\x7d"))

end CommandLine
end FlowLoops
