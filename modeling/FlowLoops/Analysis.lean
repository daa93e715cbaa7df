import FlowLoops.Description.Build
import FlowLoops.Description.Reader
import FlowLoops.Files
import FlowLoops.Loop.Detection
import FlowLoops.Report

/-!
Analysing inputs: each is read, its graph built and its loops detected. In sequence the first input
that fails ends the run; side by side all inputs are analysed, and the reports still come in the
order of the inputs.
-/

namespace FlowLoops

abbrev Access := Path → Except FileError (List UInt8)

structure Run where
  nextTag : Nat
  trace : Trace
deriving DecidableEq, Repr

namespace Run

def start (limit : Option Level) (silent : Bool) : Run := ⟨0, .start limit silent⟩

def emit (run : Run) (level : Level) (message : String) : Run :=
  { run with trace := run.trace.emit level message }

def readText (access : Access) (path : Path) : Except FileError (List Char) := do
  let bytes ← access path
  match Text.ofBytes? bytes with
  | none => .error .notText
  | some text => .ok text

def describe (access : Access) (path : Path) : Except AnalysisError Description :=
  match readText access path with
  | .error e => .error (.loading s!"unable to read {path.display}: {e.text}")
  | .ok text =>
    match Description.parse text with
    | .error r =>
      .error (.loading s!"Error during deserialization of {path.display}: {r.message text}")
    | .ok d => .ok d

/-- The graph of an input. An input that holds a description takes a tag, even if it describes no
graph. -/
def load (run : Run) (access : Access) (path : Path) : Run × Except Failure Graph :=
  match describe access path with
  | .error e => (run, .error (.reported e))
  | .ok d =>
    ({ run with nextTag := run.nextTag + 1 },
      (d.build run.nextTag).mapError fun e => e.toFailure.within path.display)

def examine (run : Run) (path : Path) (g : Graph) : Run × Except Failure Report :=
  let run := run.emit .debug s!"{path.display}: {g.blockCount} blocks, {g.edgeCount} edges"
  let (trace, loops) := run.trace.detect g
  ({ run with trace }, (loops.mapError .fault).map fun loops => ⟨path.display, g, loops⟩)

/-- Goes on with what a part of a run gave, unless it failed. -/
def andThen {α β : Type} (x : Run × Except Failure α) (f : Run → α → Run × Except Failure β) :
    Run × Except Failure β :=
  match x with
  | (run, .error e) => (run, .error e)
  | (run, .ok a) => f run a

def reportOn (run : Run) (access : Access) (path : Path) : Run × Except Failure Report :=
  andThen (run.load access path) fun run g => run.examine path g

def analyzeInOrder (access : Access) (run : Run) : List Path → Run × Except Failure (List Report)
  | [] => (run, .ok [])
  | path :: rest =>
    andThen (run.reportOn access path) fun run report =>
      andThen (analyzeInOrder access run rest) fun run reports =>
        (run, .ok (report :: reports))

def analyzeEach (access : Access) (run : Run) : List Path → Run × List (Except Failure Report)
  | [] => (run, [])
  | path :: rest =>
    let (run, outcome) := run.reportOn access path
    let (run, outcomes) := analyzeEach access run rest
    (run, outcome :: outcomes)

def announce (run : Run) (reports : List Report) : Run × Except Failure (List Report) :=
  (run.emit .info s!"Number of graphs analyzed: {reports.length}", .ok reports)

def analyze (run : Run) (access : Access) (inputs : List Path) (parallel : Bool) :
    Run × Except Failure (List Report) :=
  let found :=
    if parallel then
      let (run, outcomes) := analyzeEach access run inputs
      (run, outcomes.mapM id)
    else analyzeInOrder access run inputs
  andThen found announce

end Run

end FlowLoops
