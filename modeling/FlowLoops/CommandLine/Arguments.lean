import FlowLoops.Files
import FlowLoops.Report

/-!
The arguments of the command line. Flags and options may stand before, between and after the inputs;
a value follows its option in the next argument or in the same one, and everything after a double
dash is an input.
-/

namespace FlowLoops.CommandLine

structure Request where
  verbosity : Nat
  format : Format
  output : Option Path
  inputs : List Path
deriving DecidableEq, Repr

inductive Setting where
  | format | output
deriving DecidableEq, Repr

def Setting.name : Setting → String
  | format => "format"
  | output => "output"

def Setting.usage (s : Setting) : String := "--" ++ s.name ++ " <" ++ s.name ++ ">"

inductive Misuse where
  | unknown (argument : String)
  | missingInputs
  | missingValue (setting : Setting)
  | badFormat
  | repeated (setting : Setting)
deriving DecidableEq, Repr

def Misuse.text : Misuse → String
  | unknown argument =>
    "Found argument '" ++ argument ++ "' which wasn't expected, or isn't valid in this context"
  | missingInputs => "The following required arguments were not provided:"
  | missingValue s => "The argument '" ++ s.usage ++ "' requires a value but none was supplied"
  | badFormat => "Invalid value for '" ++ Setting.usage .format ++ "': " ++ Format.unknownText
  | repeated s =>
    "The argument '" ++ s.usage ++ "' was provided more than once, " ++
      "but cannot be used multiple times"

inductive Intent where
  | run (request : Request)
  | help
  | version
  | refuse (misuse : Misuse)
deriving DecidableEq, Repr

structure Given where
  uses : Nat
  values : List String
deriving DecidableEq, Repr

structure Scan where
  verbosity : Nat
  format : Given
  output : Given
  inputs : List String
  /-- the option whose value is to be the next argument -/
  awaiting : Option Setting
deriving DecidableEq, Repr

namespace Scan

def start : Scan := ⟨0, ⟨0, []⟩, ⟨0, []⟩, [], none⟩

def update (s : Scan) (f : Given → Given) : Setting → Scan
  | .format => { s with format := f s.format }
  | .output => { s with output := f s.output }

def addValue (s : Scan) (setting : Setting) (value : String) : Scan :=
  { s.update (fun g => { g with values := g.values ++ [value] }) setting with awaiting := none }

/-- Takes a use of an option. Equals signs before a value in the same argument are not part of
it. -/
def addUse (s : Scan) (setting : Setting) (value : Option (List Char)) : Scan :=
  let s := s.update (fun g => { g with uses := g.uses + 1 }) setting
  match value with
  | none => { s with awaiting := some setting }
  | some v => s.addValue setting (String.ofList (v.dropWhile (· = '=')))

def addVerbose (s : Scan) : Scan := { s with verbosity := s.verbosity + 1, awaiting := none }

def addInput (s : Scan) (input : String) : Scan := { s with inputs := s.inputs ++ [input] }

/-- Takes letters that follow a single dash. An option takes the letters after it as its value. -/
def addLetters (s : Scan) : List Char → Except Intent Scan
  | [] => .ok s
  | c :: rest =>
    let value := if rest = [] then none else some rest
    if c = 'f' then .ok (s.addUse .format value)
    else if c = 'o' then .ok (s.addUse .output value)
    else if c = 'v' then s.addVerbose.addLetters rest
    else if c = 'h' then .error .help
    else if c = 'V' then .error .version
    else .error (.refuse (.unknown (String.ofList ['-', c])))

def addWord (s : Scan) (word : List Char) : Except Intent Scan :=
  let name := String.ofList (word.takeWhile (· ≠ '='))
  let value := match word.dropWhile (· ≠ '=') with
    | [] => none
    | _ :: value => some value
  if name = Setting.format.name then .ok (s.addUse .format value)
  else if name = Setting.output.name then .ok (s.addUse .output value)
  else if name = "verbose" then .ok s.addVerbose
  else if name = "help" then .error .help
  else if name = "version" then .error .version
  else .error (.refuse (.unknown ("--" ++ name)))

/-- Takes an argument other than a double dash. A single dash alone is an input or a value. -/
def addArgument (s : Scan) (argument : String) : Except Intent Scan :=
  match argument.toList with
  | '-' :: '-' :: word => s.addWord (word.dropWhile (· = '-'))
  | '-' :: c :: letters => s.addLetters (c :: letters)
  | _ =>
    match s.awaiting with
    | some setting => .ok (s.addValue setting argument)
    | none => .ok (s.addInput argument)

def addAll (s : Scan) : List String → Except Intent Scan
  | [] => .ok s
  | argument :: rest =>
    if argument = "--" then .ok (rest.foldl addInput s)
    else match s.addArgument argument with
      | .error intent => .error intent
      | .ok s => s.addAll rest

/-- What is wrong with the arguments as a whole, if anything is. The format has a default, so its
value is never missing. -/
def misuse? (s : Scan) : Option Misuse :=
  if s.inputs = [] then some .missingInputs
  else if s.awaiting = some .output ∧ s.output.values = [] then some (.missingValue .output)
  else if s.format.values.any fun v => (Format.ofName? v).isNone then some .badFormat
  else if 1 < s.format.uses then some (.repeated .format)
  else if 0 < s.output.uses ∧ s.output.values = [] then some (.missingValue .output)
  else if 1 < s.output.uses then some (.repeated .output)
  else none

def request (s : Scan) : Request where
  verbosity := s.verbosity
  format := (s.format.values.head?.bind Format.ofName?).getD .text
  output := s.output.values.head?.map Path.ofString
  inputs := s.inputs.map Path.ofString

end Scan

def Intent.ofArguments (arguments : List String) : Intent :=
  match Scan.start.addAll arguments with
  | .error intent => intent
  | .ok s =>
    match s.misuse? with
    | some m => .refuse m
    | none => .run s.request

def versionText : String := "natloop-engine 0.1.0"

def helpText : String := "\n".intercalate [
  "natloop-engine 0.1.0",
  "Natural loop detection over control-flow graphs",
  "",
  "USAGE:",
  "    natloop-engine [FLAGS] [OPTIONS] <inputs>...",
  "",
  "FLAGS:",
  "    -h, --help       Prints help information",
  "    -V, --version    Prints version information",
  "    -v, --verbose    Verbosity (repeat for more)",
  "",
  "OPTIONS:",
  "    -f, --format <format>    Output format: text, json or dot [default: text]",
  "    -o, --output <output>    Write the result here instead of stdout",
  "",
  "ARGS:",
  "    <inputs>...    Control-flow graphs in JSON"]

end FlowLoops.CommandLine
