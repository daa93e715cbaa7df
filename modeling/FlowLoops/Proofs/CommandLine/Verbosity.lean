import FlowLoops.Proofs.Analysis.Narrowing
import FlowLoops.Proofs.CommandLine.Ends
import FlowLoops.Proofs.CommandLine.Scanning

/-! What verbosity flags can change. More of them let more of the same log through, and everything
else about a command line stays as it is, as it does when inputs are analysed side by side. -/

namespace FlowLoops.CommandLine
open Run

namespace Scan
variable {s : Scan} {k : Nat}

def louder (k : Nat) (s : Scan) : Scan := { s with verbosity := k + s.verbosity }

theorem after_flags (s : Scan) (n : Nat) :
    s.after { start with verbosity := n } = s.louder n := by
  simp [after, Given.after, start, louder]

theorem addAll_flags (n : Nat) :
    start.addAll (List.replicate n "-v") = .ok { start with verbosity := n } := by
  induction n with
  | zero => rfl
  | succ n ih =>
    rw [List.replicate_succ', addAll_append (by simp [List.mem_replicate]), ih]
    rfl

end Scan

variable {arguments arguments' : List String} {r : Request} {files : Files} {limit : Level}

theorem ofArguments_flags (accepted : Intent.ofArguments arguments = .run r) (n : Nat) :
    Intent.ofArguments (List.replicate n "-v" ++ arguments) =
      .run { r with verbosity := n + r.verbosity } := by
  obtain ⟨s, scanned, fine, rfl⟩ := ofArguments_eq_run.mp accepted
  have apart : "--" ∉ List.replicate n "-v" := by
    simp [List.mem_replicate]
  refine ofArguments_eq_run.mpr ⟨s.louder n, ?_, fine, rfl⟩
  rw [Scan.addAll_start_append apart (Scan.addAll_flags n) rfl, scanned, ← Scan.after_flags]
  rfl

theorem deliver_narrows {x y : Run × Except Failure String} (h : Narrowed limit x y) (r : Request)
    (files : Files) : (r.deliver files x).records.toList =
      (r.deliver files y).records.toList.filter (·.level ≤ limit) := by
  obtain ⟨run, result⟩ := x
  obtain ⟨run', result'⟩ := y
  obtain ⟨runs, same⟩ := h
  obtain rfl : result = result' := same
  obtain ⟨o, lines, delivered⟩ := exists_deliver_eq r files result
  rw [delivered, delivered]
  exact (runs.trace.emitAll lines).records

theorem ofVerbosity_of_two_le {k : Nat} (two_le : 2 ≤ k) : Level.ofVerbosity k = .trace := by
  obtain ⟨k, rfl⟩ := Nat.exists_eq_add_of_le' two_le
  rfl

theorem execute_narrows {k : Nat} (two_le : 2 ≤ k) (r : Request) (files : Files) :
    (r.execute files false).records.toList =
      ({ r with verbosity := k }.execute files false).records.toList.filter
        (·.level ≤ Level.ofVerbosity r.verbosity) := by
  have loudest : Request.begin { r with verbosity := k } false = .start (some .trace) false := by
    rw [Request.begin, ofVerbosity_of_two_le two_le]
  have begun : (r.begin false).Narrows (Level.ofVerbosity r.verbosity)
      (.start (some .trace) false) := narrows_start _
  have analyzed : Narrowed _ ((r.begin false).analyze files.read r.inputs false) _ := begun.analyze
  rw [execute_eq_finish, execute_eq_finish, loudest]
  exact deliver_narrows (analyzed.andThen fun _ _ _ runs => ⟨runs.emit _ _, rfl⟩) r files

/-- Whatever the number of verbosity flags, and in sequence or side by side in any order of turns, a
command line with one failing input at most ends alike but for its log. In sequence the log is what
its limit lets through of the log that lets everything through. -/
theorem verbosity_and_setting_do_not_leak {k : Nat} (files : Files)
    (accepted : Intent.ofArguments arguments = .run r)
    (accepted' : Intent.ofArguments arguments' = .run { r with verbosity := k }) :
    (AtMostOneFails files.read r.inputs →
      ∀ setting setting' o o', Ends files setting arguments o → Ends files setting' arguments' o' →
        o.Agrees o') ∧
    (∀ setting setting', asksParallel setting = false → asksParallel setting' = false → 2 ≤ k →
      (execute files setting arguments).records.toList =
        (execute files setting' arguments').records.toList.filter
          (·.level ≤ Level.ofVerbosity r.verbosity)) ∧
    ∀ n, Intent.ofArguments (List.replicate n "-v" ++ arguments) =
      .run { r with verbosity := n + r.verbosity } := by
  refine ⟨?_, ?_, ofArguments_flags accepted⟩
  · intro one setting setting' o o' ends ends'
    obtain ⟨x, settled, rfl⟩ := ends.settled accepted
    obtain ⟨y, settled', rfl⟩ := ends'.settled accepted'
    exact finish_agrees one settled settled'
  · intro setting setting' sequential sequential' two_le
    rw [execute_of_accepted accepted, execute_of_accepted accepted', sequential, sequential']
    exact execute_narrows two_le r files

def quiet : List String := ["a", "b", "-o", "out"]

def loud : List String := ["-v", "a", "b", "--output=out", "--verbose"]

def missingInput : Request := ⟨0, .text, some (.ofString "out"), [.ofString "a", .ofString "b"]⟩

theorem atMostOneFails_missing : AtMostOneFails selfLoop.read missingInput.inputs := by
  have fine : ((Run.start none true).reportOn selfLoop.read (.ofString "a")).2.toBool = true := by
    decide +kernel
  have not_a (p : Path) (hp : p ∈ missingInput.inputs) (e : AnalysisError)
      (fails : Fails selfLoop.read p e) : p = .ofString "b" := by
    rcases List.mem_cons.mp hp with rfl | hp
    · rw [fails] at fine
      cases fine
    · exact List.mem_singleton.mp hp
  intro p hp q hq e e' fails fails'
  rw [not_a p hp e fails, not_a q hq e' fails']

theorem quiet_ends_as_loud :
    (Intent.ofArguments quiet = .run missingInput ∧
      Intent.ofArguments loud = .run { missingInput with verbosity := 2 } ∧
      AtMostOneFails selfLoop.read missingInput.inputs) ∧
    (execute selfLoop none quiet).Agrees (execute selfLoop (some "1") loud) ∧
    (execute selfLoop none quiet).records.toList =
      (execute selfLoop none loud).records.toList.filter (·.level ≤ .info) ∧
    (execute selfLoop none loud).records.size = 5 := by
  have accepted : Intent.ofArguments quiet = .run missingInput := by decide +kernel
  have accepted' : Intent.ofArguments loud = .run { missingInput with verbosity := 2 } := by
    decide +kernel
  obtain ⟨ends, logs, -⟩ := verbosity_and_setting_do_not_leak selfLoop accepted accepted'
  refine ⟨⟨accepted, accepted', atMostOneFails_missing⟩, ?_, ?_, by decide +kernel⟩
  · exact ends atMostOneFails_missing none (some "1") _ _ .executed .executed
  · exact logs none none rfl rfl (Nat.le_refl 2)

end FlowLoops.CommandLine
