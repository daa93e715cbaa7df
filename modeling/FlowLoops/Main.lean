import FlowLoops.CommandLine.Execution

/-!
The command line itself: reads the inputs of a request, carries it out, and prints or writes what
comes of it.
-/

namespace FlowLoops.CommandLine

def fileError : IO.Error → FileError
  | .noFileOrDirectory .. => .notFound
  | .inappropriateType _ 20 _ => .notDirectory
  | .inappropriateType _ 21 _ => .isDirectory
  | e => .other (toString e)

def osName (path : Path) : String := Text.ofBytesLossy path.bytes

def fetch (paths : List Path) : IO (List (Path × Except FileError (List UInt8))) :=
  paths.mapM fun path => do
    try
      let content ← IO.FS.readBinFile (osName path)
      return (path, .ok content.toList)
    catch e => return (path, .error (fileError e))

def printLog (records : Array Record) : IO Unit :=
  records.forM fun r => IO.eprintln s!"[{r.level.name}] {r.message}"

def perform (r : Request) (parallel : Bool) : IO UInt32 := do
  let contents ← fetch r.inputs
  let access : Access := fun path => (contents.lookup path).getD (.error .notFound)
  let (run, outcome) := r.content access parallel
  printLog run.trace.records
  match outcome with
  | .error e =>
    IO.eprintln (failureText e.text)
    return 1
  | .ok content =>
    match r.output with
    | none =>
      IO.println content
      return 0
    | some path =>
      try
        IO.FS.writeFile (osName path) content
        let written := Trace.start (some (Level.ofVerbosity r.verbosity)) parallel
        printLog (written.emit .info (writtenText path)).records
        return 0
      catch e =>
        IO.eprintln (failureText (fileError e).text)
        return 1

def start (arguments : List String) : IO UInt32 := do
  match Intent.ofArguments arguments with
  | .run r => perform r (asksParallel (← IO.getEnv "NATLOOP_PARALLEL"))
  | .help =>
    IO.println helpText
    return 0
  | .version =>
    IO.println versionText
    return 0
  | .refuse m =>
    IO.eprintln (misuseText m)
    return 1

end FlowLoops.CommandLine

def main (arguments : List String) : IO UInt32 := FlowLoops.CommandLine.start arguments
