import FlowLoops.Analysis
import FlowLoops.Graph.Matching
import FlowLoops.Text.Padding

/-!
Sessions: any number of graphs, the handles issued for their blocks, sets of loops detected on them,
reports and open tracers, each kept in a table and named by its place there. A step that is refused
leaves what it changed before.
-/

namespace FlowLoops

/-- The state of a session. The slot of a graph given to a report, and of a closed tracer, is
empty. -/
structure Session where
  nextTag : Nat
  graphs : Array (Option Graph)
  handles : Array BlockId
  loopSets : Array (List Loop)
  reports : Array Report
  tracers : Array (Option Tracer)
  trace : Trace
deriving DecidableEq, Repr

/-- The tables of a session, and the other things a step can name wrongly. -/
inductive Table where
  | graph | handle | loopSet | loop | report | tracer | step
deriving DecidableEq, Repr

inductive Refusal where
  | reported (error : AnalysisError)
  /-- a text that holds no description, with what is said of it -/
  | unreadable (message : String)
  | unknownFormat
  | fault (fault : Fault)
  /-- a step that names something that is not there -/
  | missing (table : Table)
deriving DecidableEq, Repr

def Failure.toRefusal : Failure → Refusal
  | .reported e => .reported e
  | .fault f => .fault f

/-- One step of a session. Graphs, handles and so on are named by their places in the tables. -/
inductive Step where
  | create
  | copy (graph : Nat)
  | build (text : String)
  | block (graph : Nat) (content : String)
  /-- as many blocks, their contents a stem and a number -/
  | many (graph count : Nat) (stem : String)
  | blocks (graph : Nat)
  | edge (graph source target : Nat)
  | tryEdge (graph source target : Nat)
  /-- edges between handles given by their distance from a first one -/
  | edges (graph base : Nat) (pairs : List (Nat × Nat))
  /-- the edges of an arithmetic progression: for each `i` below a count, from the handle at
  `(a * i + b) % n` to that at `(c * i + d) % n` -/
  | affine (graph base n count a b c d : Nat)
  | owns (graph handle : Nat)
  | successors (graph handle : Nat)
  | predecessors (graph handle : Nat)
  | content (graph handle : Nat)
  | pad (graph handle : Nat) (alignment : Text.Alignment) (width : Nat) (precision : Option Nat)
  | setEntry (graph handle : Nat)
  | entry (graph : Nat)
  | size (graph : Nat)
  | dump (graph : Nat)
  | dot (graph : Nat)
  | equal (left right : Nat)
  | compare (left right : Nat)
  | detect (graph : Nat)
  | summary (graph : Nat)
  | loop (loopSet index : Nat)
  | contains (loopSet index handle : Nat)
  | loopsEqual (left right : Nat)
  | report (graph loopSet : Nat) (name : String)
  | reportClone (graph loopSet : Nat) (name : String)
  | render (first last : Nat) (format : String)
  | openTracer (title : String)
  | event (tracer : Nat) (text : String)
  | closeTracer (tracer : Nat)
deriving DecidableEq, Repr

inductive Answer where
  | nothing
  | flag (value : Bool)
  | text (value : String)
  | texts (values : List String)
  | numbers (values : List Nat)
  | order (value : Ordering)
  | newGraph (place : Nat)
  | newHandle (place index : Nat)
  | newBlock (place : Nat) (block : BlockId)
  | newBlocks (first blockCount : Nat)
  | listed (first : Nat) (indices : List Nat)
  | edgeCount (count : Nat)
  | graph (graph : Graph)
  | newLoops (place : Nat) (loops : List Loop)
  | summaries (headerLatchLength : List (Nat × Nat × Nat))
  | loop (loop : Loop) (header latch : Nat)
  | newReport (place : Nat)
  | newTracer (place : Nat)
deriving DecidableEq, Repr

namespace Session

def start (limit : Option Level) : Session := ⟨0, #[], #[], #[], #[], #[], .start limit false⟩

abbrev Result := Session × Except Refusal Answer

def refuse (s : Session) (r : Refusal) : Result := (s, .error r)

def answer (s : Session) (a : Answer) : Result := (s, .ok a)

def answerWith {α : Type} (s : Session) (f : α → Answer) : Except Fault α → Result
  | .error fault => s.refuse (.fault fault)
  | .ok v => s.answer (f v)

def withGraph (s : Session) (graph : Nat) (next : Graph → Result) : Result :=
  match s.graphs[graph]? with
  | some (some g) => next g
  | _ => s.refuse (.missing .graph)

def withHandle (s : Session) (handle : Nat) (next : BlockId → Result) : Result :=
  match s.handles[handle]? with
  | some b => next b
  | none => s.refuse (.missing .handle)

def withLoops (s : Session) (loopSet : Nat) (next : List Loop → Result) : Result :=
  match s.loopSets[loopSet]? with
  | some loops => next loops
  | none => s.refuse (.missing .loopSet)

def withLoop (s : Session) (loopSet index : Nat) (next : Loop → Result) : Result :=
  s.withLoops loopSet fun loops =>
    match loops[index]? with
    | some l => next l
    | none => s.refuse (.missing .loop)

def withTracer (s : Session) (tracer : Nat) (next : Tracer → Result) : Result :=
  match s.tracers[tracer]? with
  | some (some t) => next t
  | _ => s.refuse (.missing .tracer)

def setGraph (s : Session) (graph : Nat) (g : Graph) : Session :=
  { s with graphs := s.graphs.setIfInBounds graph (some g) }

def addGraph (s : Session) (g : Graph) : Result :=
  { s with nextTag := s.nextTag + 1, graphs := s.graphs.push (some g) }.answer
    (.newGraph s.graphs.size)

def addHandles (s : Session) (handles : List BlockId) : Session :=
  { s with handles := s.handles ++ handles }

/-- Adds edges between handles in order. Gives the graph with the edges before the first that
cannot be added, and why it cannot. -/
def addEdges (s : Session) (g : Graph) : List (Nat × Nat) → Graph × Option Refusal
  | [] => (g, none)
  | (source, target) :: rest =>
    match s.handles[source]?, s.handles[target]? with
    | some a, some b =>
      match g.connect a b with
      | .error fault => (g, some (.fault fault))
      | .ok g => s.addEdges g rest
    | _, _ => (g, some (.missing .handle))

def insertEdges (s : Session) (graph : Nat) (pairs : List (Nat × Nat)) : Result :=
  s.withGraph graph fun g =>
    let (g, refused) := s.addEdges g pairs
    let s := s.setGraph graph g
    match refused with
    | some r => s.refuse r
    | none => s.answer (.edgeCount g.edgeCount)

def detect (s : Session) (g : Graph) (next : Session → List Loop → Result) : Result :=
  let (trace, loops) := s.trace.detect g
  let s := { s with trace }
  match loops with
  | .error fault => s.refuse (.fault fault)
  | .ok loops => next s loops

def ends (l : Loop) : Except Fault (BlockId × BlockId) :=
  match l.header?, l.latch? with
  | some header, some latch => .ok (header, latch)
  | _, _ => .error (.outOfRange 0 l.blocks.length)

def addHandle (s : Session) (b : BlockId) (next : Nat → Answer) : Result :=
  { s with handles := s.handles.push b }.answer (next s.handles.size)

end Session

end FlowLoops
