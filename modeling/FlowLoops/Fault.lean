import FlowLoops.Graph.BlockId

/-!
Faults: the ways a caller can break the rules of the library. An operation that meets one does
nothing further, and what it changed before stays changed.
-/

namespace FlowLoops

inductive Fault where
  /-- a handle was given to a graph that did not issue it -/
  | foreignBlock (block : BlockId)
  /-- a position lies outside the sequence it is looked up in -/
  | outOfRange (index size : Nat)
  /-- tracers were closed out of order: the depth found, and the depth their nesting calls for -/
  | traceDepth (found expected : Nat)
deriving DecidableEq, Repr

def Fault.message : Fault → String
  | .foreignBlock block => s!"{block} is not a block of this graph"
  | .outOfRange index size => s!"index out of bounds: the len is {size} but the index is {index}"
  | .traceDepth found expected =>
    "assertion `left == right` failed: TRACE_DEPTH is out of sync\n" ++
      s!"  left: {found}\n right: {expected}"

end FlowLoops
