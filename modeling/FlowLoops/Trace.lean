import FlowLoops.Fault

/-!
The log of a run and the tracers that structure it. A tracer indents what is recorded while it is
open; its opening and its closing line stand at the same depth when tracers are closed in reverse
order, and closing them otherwise is a fault.
-/

namespace FlowLoops

inductive Level where
  | error | warn | info | debug | trace
deriving DecidableEq, Repr

namespace Level

def rank : Level → Nat
  | error => 1
  | warn => 2
  | info => 3
  | debug => 4
  | trace => 5

def name : Level → String
  | error => "ERROR"
  | warn => "WARN"
  | info => "INFO"
  | debug => "DEBUG"
  | trace => "TRACE"

instance : LE Level := ⟨fun a b => a.rank ≤ b.rank⟩

instance (a b : Level) : Decidable (a ≤ b) := inferInstanceAs (Decidable (a.rank ≤ b.rank))

def ofVerbosity : Nat → Level
  | 0 => info
  | 1 => debug
  | _ => trace

end Level

structure Record where
  level : Level
  message : String
deriving DecidableEq, Repr

/-- The state of the log: the highest level recorded (none when the log is off), whether tracers
are silent, how deep tracers are nested, and the records so far. -/
structure Trace where
  limit : Option Level
  silent : Bool
  depth : Nat
  records : Array Record
deriving DecidableEq, Repr

/-- An open tracer. A silent one has no level. -/
structure Tracer where
  title : String
  level : Option Nat
deriving DecidableEq, Repr

def indent (level : Nat) : String := String.ofList (List.replicate (2 * level) ' ')

namespace Trace

def start (limit : Option Level) (silent : Bool) : Trace := ⟨limit, silent, 0, #[]⟩

def emit (t : Trace) (level : Level) (message : String) : Trace :=
  match t.limit with
  | none => t
  | some limit =>
    if level ≤ limit then { t with records := t.records.push ⟨level, message⟩ } else t

def enter (t : Trace) (title : String) : Trace × Tracer :=
  if t.silent then (t, ⟨title, none⟩)
  else ({ t with depth := t.depth + 1 }.emit .trace (indent t.depth ++ "-> " ++ title),
    ⟨title, some t.depth⟩)

def note (t : Trace) (tracer : Tracer) (event : String) : Trace :=
  match tracer.level with
  | none => t
  | some level => t.emit .trace (indent level ++ " " ++ event)

/-- Closes a tracer and returns to its depth. The depth found has to be one more than that. -/
def leave (t : Trace) (tracer : Tracer) : Trace × Except Fault Unit :=
  match tracer.level with
  | none => (t, .ok ())
  | some level =>
    ({ t.emit .trace (indent level ++ "<- " ++ tracer.title) with depth := level },
      if t.depth = level + 1 then .ok () else .error (.traceDepth t.depth (level + 1)))

end Trace

end FlowLoops
