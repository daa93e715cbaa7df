import FlowLoops.Analysis
import FlowLoops.CommandLine.Arguments

/-!
Carrying out a command line: all inputs are analysed and the reports rendered before anything is
written, and a failure writes nothing.
-/

namespace FlowLoops.CommandLine

def asksParallel (setting : Option String) : Bool := setting = some "1"

/-- The run of a request before its first graph. Side by side, tracers are silent. -/
def Request.begin (r : Request) (parallel : Bool) : Run :=
  .start (some (Level.ofVerbosity r.verbosity)) parallel

def Request.conclude (r : Request) (run : Run) (reports : List Report) :
    Run × Except Failure String :=
  let found := reports.foldr (fun report n => report.loops.length + n) 0
  (run.emit .info s!"Number of loops found: {found}",
    (Report.render reports r.format).mapError .fault)

def Request.content (r : Request) (access : Access) (parallel : Bool) :
    Run × Except Failure String :=
  Run.andThen ((r.begin parallel).analyze access r.inputs parallel) r.conclude

def writtenText (path : Path) : String := s!"Result written to {path.display}"

structure Outcome where
  code : Nat
  stdout : String
  stderr : String
  records : Array Record
  files : Files
deriving DecidableEq, Repr

def failureText (text : String) : String := "Error: " ++ text

def misuseText (m : Misuse) : String := "error: " ++ m.text

def Request.deliver (r : Request) (files : Files) (x : Run × Except Failure String) : Outcome :=
  match x with
  | (run, .error e) => ⟨1, "", failureText e.text, run.trace.records, files⟩
  | (run, .ok content) =>
    match r.output with
    | none => ⟨0, content ++ "\n", "", run.trace.records, files⟩
    | some path =>
      match files.write path (Text.toBytes content) with
      | .error e => ⟨1, "", failureText e.text, run.trace.records, files⟩
      | .ok files => ⟨0, "", "", (run.emit .info (writtenText path)).trace.records, files⟩

def Request.execute (r : Request) (files : Files) (parallel : Bool) : Outcome :=
  r.deliver files (r.content files.read parallel)

def execute (files : Files) (parallel : Option String) (arguments : List String) : Outcome :=
  match Intent.ofArguments arguments with
  | .run r => r.execute files (asksParallel parallel)
  | .help => ⟨0, helpText ++ "\n", "", #[], files⟩
  | .version => ⟨0, versionText ++ "\n", "", #[], files⟩
  | .refuse m => ⟨1, "", misuseText m, #[], files⟩

end FlowLoops.CommandLine
