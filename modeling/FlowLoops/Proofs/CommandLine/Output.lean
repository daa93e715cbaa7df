import FlowLoops.Proofs.CommandLine.Ends
import FlowLoops.Proofs.CommandLine.Scanning
import FlowLoops.Proofs.Files.Writing

/-! What an output option changes. All inputs are analysed before the file is touched, so the same
failures are reported with and without the option, and what would be printed is what is written. -/

namespace FlowLoops.CommandLine
open Relation Run

namespace Outcome

def Reports (o : Outcome) (e : AnalysisError) : Prop := o.code = 1 ∧ o.stderr = failureText e.text

structure Refrains (o : Outcome) (files : Files) : Prop where
  code : o.code = 1
  stdout : o.stdout = ""
  files : o.files = files

structure Prints (o : Outcome) (files : Files) (content : String) : Prop where
  code : o.code = 0
  stdout : o.stdout = content ++ "\n"
  stderr : o.stderr = ""
  files : o.files = files

structure Writes (o : Outcome) (files : Files) (path : Path) (content : String) : Prop where
  code : o.code = 0
  stdout : o.stdout = ""
  stderr : o.stderr = ""
  files : files.Written path (Text.toBytes content) o.files

variable {o : Outcome} {files : Files}

theorem not_reports_of_code (code : o.code = 0) : ¬ ∃ e, o.Reports e := by
  rintro ⟨e, failed, -⟩
  rw [code] at failed
  cases failed

end Outcome

variable {r : Request} {files : Files} {setting setting' : Option String}
  {arguments arguments' : List String} {p : Path}

section Texts

theorem failureText_injective : Function.Injective failureText := by
  intro s t same
  rw [failureText, failureText] at same
  exact (String.append_right_inj _).mp same

theorem loading_ne_invariant (m m' : String) :
    (AnalysisError.loading m).text ≠ (AnalysisError.invariant m').text := by
  show "[natloop::loading] " ++ m ≠ "[natloop::invariant] " ++ m'
  intro same
  have chars := congrArg String.toList same
  rw [String.toList_append, String.toList_append] at chars
  have category := congrArg (·[10]?) chars
  rw [List.getElem?_append_left (by decide), List.getElem?_append_left (by decide)] at category
  exact absurd category (by decide)

theorem text_injective : Function.Injective AnalysisError.text := by
  intro e e' same
  cases e with
  | loading m =>
    cases e' with
    | loading m' => exact congrArg _ ((String.append_right_inj _).mp same)
    | invariant m' => exact absurd same (loading_ne_invariant m m')
  | invariant m =>
    cases e' with
    | loading m' => exact absurd same.symm (loading_ne_invariant m' m)
    | invariant m' => exact congrArg _ ((String.append_right_inj _).mp same)

theorem text_ne {e : FileError} (astray : Files.Astray e) (e' : AnalysisError) :
    e.text ≠ e'.text := by
  intro same
  have opening : e'.text.toList.head? = some '[' := by
    cases e' with
    | loading m =>
      have category : "[natloop::loading] ".toList.head? = some '[' := by decide
      show ("[natloop::loading] " ++ m).toList.head? = some '['
      rw [String.toList_append, List.head?_append, category, Option.some_or]
    | invariant m =>
      have category : "[natloop::invariant] ".toList.head? = some '[' := by decide
      show ("[natloop::invariant] " ++ m).toList.head? = some '['
      rw [String.toList_append, List.head?_append, category, Option.some_or]
  rw [← same] at opening
  rcases astray with rfl | rfl | rfl <;> exact absurd opening (by decide)

end Texts

section Finish
variable {x : Run × Except Failure (List Report)} {rs : List Report} {e : AnalysisError}
  {content : String}

theorem finish_of_error (failed : x.2 = .error (.reported e)) (r : Request) (files : Files) :
    (r.finish files x).Reports e ∧ (r.finish files x).Refrains files := by
  rw [Request.finish, andThen_of_error failed]
  exact ⟨⟨rfl, rfl⟩, rfl, rfl, rfl⟩

theorem finish_of_ok (files : Files) (made : x.2 = .ok rs)
    (rendered : Report.render rs r.format = .ok content) :
    ∃ run : Run, r.finish files x = r.deliver files (run, .ok content) := by
  refine ⟨(r.conclude x.1 rs).1, ?_⟩
  rw [Request.finish, andThen_of_ok made, Request.conclude, rendered]
  rfl

theorem finish_printing (files : Files) (silent : r.output = none) (made : x.2 = .ok rs)
    (rendered : Report.render rs r.format = .ok content) :
    (r.finish files x).Prints files content := by
  obtain ⟨run, finished⟩ := finish_of_ok files made rendered
  rw [finished]
  simp only [Request.deliver, silent]
  exact ⟨rfl, rfl, rfl, rfl⟩

theorem finish_writing (files : Files) (asked : r.output = some p) (made : x.2 = .ok rs)
    (rendered : Report.render rs r.format = .ok content) :
    (files.Writable p → (r.finish files x).Writes files p content) ∧
    (¬ files.Writable p → (r.finish files x).Refrains files ∧
      ∃ e, Files.Astray e ∧ (r.finish files x).stderr = failureText e.text) := by
  obtain ⟨run, finished⟩ := finish_of_ok files made rendered
  rw [finished]
  refine ⟨fun writable => ?_, fun unwritable => ?_⟩
  · obtain ⟨after, written⟩ := writable.exists_write (Text.toBytes content)
    simp only [Request.deliver, asked, written]
    exact ⟨rfl, rfl, rfl, Files.written_of_write written⟩
  · cases written : files.write p (Text.toBytes content) with
    | ok after => exact absurd ⟨_, _, written⟩ unwritable
    | error e =>
      simp only [Request.deliver, asked, written]
      exact ⟨⟨rfl, rfl, rfl⟩, e, Files.astray_write written, rfl⟩

/-- An error is reported if and only if the inputs call for it. That a file cannot be written is
reported in other words. -/
theorem finish_reports_iff (settled : Settled files.read r.inputs x.2) :
    (r.finish files x).Reports e ↔ x.2 = .error (.reported e) := by
  refine ⟨fun reports => ?_, fun failed => (finish_of_error failed r files).1⟩
  cases result : x.2 with
  | error f =>
    rw [result] at settled
    cases settled with
    | @failure q e' listed fails =>
      have texts := (finish_of_error result r files).1.2.symm.trans reports.2
      rw [text_injective (failureText_injective texts)]
  | ok rs =>
    rw [result] at settled
    cases settled with
    | reports each =>
      -- then the run prints, writes or fails to write, and none of these ends reads like an error
      -- of an input
      obtain ⟨content, rendered⟩ := Report.exists_render each.owning r.format
      have failed := reports.1
      cases asked : r.output with
      | none =>
        rw [(finish_printing files asked result rendered).code] at failed
        cases failed
      | some p =>
        obtain ⟨writes, refrains⟩ := finish_writing files asked result rendered
        by_cases writable : files.Writable p
        · rw [(writes writable).code] at failed
          cases failed
        · obtain ⟨-, e', astray, said⟩ := refrains writable
          exact absurd (failureText_injective (said.symm.trans reports.2)) (text_ne astray e)

end Finish

/-- A run that writes to a file and one that prints fail in the same cases while inputs are loaded
or built, and with the same errors: the very same in sequence, or where no two inputs fail. Then
nothing is printed as a result, and nothing is written. Otherwise the file, if it can be written,
holds exactly what is printed, less the line break at its end, and no other file changes. The path
may be that of an input or of a file that was there before. -/
theorem output_option_agrees_with_printing (files : Files)
    (accepted : Intent.ofArguments arguments = .run { r with output := none })
    (accepted' : Intent.ofArguments arguments' = .run { r with output := some p }) :
    (∀ setting setting' o o', Ends files setting arguments o → Ends files setting' arguments' o' →
      ((∃ e, o.Reports e) ↔ ∃ e, o'.Reports e) ∧
      (asksParallel setting = false ∧ asksParallel setting' = false ∨
        AtMostOneFails files.read r.inputs → ∀ e, o.Reports e ↔ o'.Reports e) ∧
      (∀ e, o.Reports e → o.Refrains files ∧ o'.Refrains files ∧
        ∃ q ∈ r.inputs, Fails files.read q e) ∧
      ((¬ ∃ e, o.Reports e) → ∃ content, o.Prints files content ∧
        (files.Writable p → o'.Writes files p content) ∧
        (¬ files.Writable p → o'.Refrains files))) ∧
    (∀ setting e, (∃ o, Ends files setting arguments o ∧ o.Reports e) ↔
      ∃ o, Ends files setting arguments' o ∧ o.Reports e) ∧
    ∀ value : String, value.toList.head? ≠ some '-' →
      Intent.ofArguments ("-o" :: value :: arguments) =
        .run { r with output := some (.ofString value) } := by
  refine ⟨?_, ?_, fun value plain => ofArguments_output accepted plain⟩
  · intro setting setting' o o' ends ends'
    obtain ⟨x, settled, rfl, sequence, -⟩ := ends.exists_finish accepted
    obtain ⟨y, settled', rfl, sequence', -⟩ := ends'.exists_finish accepted'
    -- what is reported no longer depends on the option from here on
    simp only [finish_reports_iff settled, finish_reports_iff settled']
    refine ⟨⟨?_, ?_⟩, ?_, ?_, ?_⟩
    · rintro ⟨e, failed⟩
      exact (settled.exists_error settled' failed).2
    · rintro ⟨e, failed⟩
      exact (settled'.exists_error settled failed).2
    · rintro (⟨sequential, sequential'⟩ | one) e
      · rw [sequence sequential, sequence' sequential']
        rfl
      · rcases settled.cases_of_atMostOneFails one settled' with
          ⟨f, failed, failed'⟩ | ⟨rs, ks, made, made', -⟩
        · rw [failed, failed']
        · rw [made, made']
          exact ⟨nofun, nofun⟩
    · intro e failed
      obtain ⟨fails, e', failed'⟩ := settled.exists_error settled' failed
      exact ⟨(finish_of_error failed _ _).2, (finish_of_error failed' _ _).2, fails⟩
    · intro fine
      obtain ⟨rs, ks, content, made, made', rendered, rendered'⟩ :=
        settled.exists_content settled' fine r.format
      obtain ⟨writes, refrains⟩ :=
        finish_writing (r := { r with output := some p }) files rfl made' rendered'
      exact ⟨content, finish_printing files rfl made rendered, writes, fun unwritable =>
        (refrains unwritable).1⟩
  · intro setting e
    constructor
    · rintro ⟨o, ends, reports⟩
      obtain ⟨x, settled, rfl, -, other⟩ := ends.exists_finish accepted
      rw [finish_reports_iff settled] at reports
      exact ⟨_, other _ _ accepted' rfl rfl, (finish_of_error reports _ _).1⟩
    · rintro ⟨o, ends, reports⟩
      obtain ⟨x, settled, rfl, -, other⟩ := ends.exists_finish accepted'
      rw [finish_reports_iff settled] at reports
      exact ⟨_, other _ _ accepted rfl rfl, (finish_of_error reports _ _).1⟩

theorem input_overwritten :
    (∃ content, content ++ "\n" = "Num blocks: 1\nLoop \x7b\n  a\n  a\n\x7d;\n" ∧
      (execute selfLoop none ["a"]).Prints selfLoop content ∧
      (execute selfLoop (some "1") ["-o", "a", "a"]).Writes selfLoop (.ofString "a") content) ∧
    (execute selfLoop none ["b"]).Reports
      (.loading "unable to read b: No such file or directory (os error 2)") ∧
    (execute selfLoop (some "1") ["-o", "a", "b"]).Reports
      (.loading "unable to read b: No such file or directory (os error 2)") ∧
    (execute selfLoop (some "1") ["-o", "a", "b"]).Refrains selfLoop := by
  constructor
  · have accepted : Intent.ofArguments ["a"] = .run ⟨0, .text, none, [.ofString "a"]⟩ := by
      decide +kernel
    have accepted' : Intent.ofArguments ["-o", "a", "a"] =
        .run ⟨0, .text, some (.ofString "a"), [.ofString "a"]⟩ := by
      decide +kernel
    have fine : (execute selfLoop none ["a"]).code = 0 := by decide +kernel
    have shown : (execute selfLoop none ["a"]).stdout =
        "Num blocks: 1\nLoop \x7b\n  a\n  a\n\x7d;\n" := by
      decide +kernel
    have writable : selfLoop.Writable (.ofString "a") := by
      have written : (selfLoop.write (.ofString "a") []).toBool = true := by decide +kernel
      cases made : selfLoop.write (.ofString "a") [] with
      | error e => simp [made, Except.toBool] at written
      | ok after => exact ⟨[], after, made⟩
    obtain ⟨-, -, -, done⟩ := (output_option_agrees_with_printing
      (r := ⟨0, .text, none, [.ofString "a"]⟩) selfLoop accepted accepted').1 none (some "1") _ _
        .executed .executed
    obtain ⟨content, prints, writes, -⟩ := done (Outcome.not_reports_of_code fine)
    exact ⟨content, prints.stdout.symm.trans shown, prints, writes writable⟩
  · have accepted : Intent.ofArguments ["b"] = .run ⟨0, .text, none, [.ofString "b"]⟩ := by
      decide +kernel
    have accepted' : Intent.ofArguments ["-o", "a", "b"] =
        .run ⟨0, .text, some (.ofString "a"), [.ofString "b"]⟩ := by
      decide +kernel
    have reports : (execute selfLoop none ["b"]).Reports
        (.loading "unable to read b: No such file or directory (os error 2)") := by
      unfold Outcome.Reports
      decide +kernel
    have one : AtMostOneFails selfLoop.read [.ofString "b"] := by
      intro p hp q hq e e' _ _
      rw [List.mem_singleton.mp hp, List.mem_singleton.mp hq]
    obtain ⟨-, same, refrain, -⟩ := (output_option_agrees_with_printing
      (r := ⟨0, .text, none, [.ofString "b"]⟩) selfLoop accepted accepted').1 none (some "1") _ _
        .executed .executed
    exact ⟨reports, (same (.inr one) _).mp reports, (refrain _ reports).2.1⟩

end FlowLoops.CommandLine
