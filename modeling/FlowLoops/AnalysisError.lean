import FlowLoops.Fault

/-!
Errors of the analysis. Each has a category, which its text opens with, and a message, which grows
on the left as the error is placed.
-/

namespace FlowLoops

inductive AnalysisError where
  /-- an input could not be read as a description of a graph -/
  | loading (message : String)
  /-- an input describes no graph -/
  | invariant (message : String)
deriving DecidableEq, Repr

namespace AnalysisError

def within (place : String) : AnalysisError → AnalysisError
  | loading m => loading (place ++ ": " ++ m)
  | invariant m => invariant (place ++ ": " ++ m)

def text : AnalysisError → String
  | loading m => "[natloop::loading] " ++ m
  | invariant m => "[natloop::invariant] " ++ m

end AnalysisError

inductive Violation where
  | foreignBlock (block : BlockId)
  | duplicatedLabel (label : String)
  | unknownLabel (label : String)
deriving DecidableEq, Repr

namespace Violation

def message : Violation → String
  | foreignBlock b => s!"{b} is not a block of this graph"
  | duplicatedLabel l => "duplicated block label: " ++ l
  | unknownLabel l => "unknown block label: " ++ l

def toError (v : Violation) : AnalysisError := .invariant v.message

end Violation

/-- How a run can end without a result: an error it reports, or a fault it was not meant to meet. -/
inductive Failure where
  | reported (error : AnalysisError)
  | fault (fault : Fault)
deriving DecidableEq, Repr

def Failure.within (place : String) : Failure → Failure
  | .reported e => .reported (e.within place)
  | .fault f => .fault f

def Failure.text : Failure → String
  | .reported e => e.text
  | .fault f => f.message

/-- What keeps a graph from being built: a violation that is checked for, or a fault behind the
checks. -/
inductive BuildFailure where
  | violation (violation : Violation)
  | fault (fault : Fault)
deriving DecidableEq, Repr

def BuildFailure.toFailure : BuildFailure → Failure
  | violation v => .reported v.toError
  | fault f => .fault f

end FlowLoops
