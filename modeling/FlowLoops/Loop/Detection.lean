import FlowLoops.Loop.Search
import FlowLoops.Trace

/-!
Loop detection as it is logged: a tracer around the search, one event for each back edge, and a
summary before the tracer is closed.
-/

namespace FlowLoops

/-- The loops of a graph, one for each back edge, in the order of discovery. -/
def Graph.loops (g : Graph) : Except Fault (List Loop) :=
  (Search.ofGraph g).map (·.loops.toList)

namespace Trace

def noteBackEdges (t : Trace) (tracer : Tracer) (found : Array BackEdge) : Trace :=
  found.foldl (fun t e => t.note tracer s!"back-edge {e.latch} -> {e.header}") t

def detect (t : Trace) (g : Graph) : Trace × Except Fault (List Loop) :=
  let (t, tracer) := t.enter s!"detect loops over {g.blockCount} blocks"
  match Search.ofGraph g with
  | .error fault => ((t.leave tracer).1, .error fault)
  | .ok search =>
    let t := t.noteBackEdges tracer search.backEdges
    let t := t.emit .debug (s!"{search.loops.size} loop(s) found among {g.blockCount} blocks" ++
      s!" and {g.edgeCount} edges")
    let (t, closed) := t.leave tracer
    (t, closed.map fun _ => search.loops.toList)

end Trace

end FlowLoops
