import FlowLoops.Description.Basic
import FlowLoops.Graph.Basic

/-!
Building a graph from its description: first the blocks, each under a label of its own, then the
edges between labels that blocks have, then the entry. The first thing that cannot be done ends it.
-/

namespace FlowLoops

namespace Description

/-- The blocks of the labels so far, latest first. -/
abbrev Labels := List (String × BlockId)

def Labels.find (labels : Labels) (label : String) : Except Violation BlockId :=
  match labels.lookup label with
  | none => .error (.unknownLabel label)
  | some b => .ok b

def addBlocks (g : Graph) (labels : Labels) : List Block → Except Violation (Graph × Labels)
  | [] => .ok (g, labels)
  | b :: rest =>
    let (g, id) := g.issueBlock (b.content.getD b.label)
    if (labels.lookup b.label).isSome then .error (.duplicatedLabel b.label)
    else addBlocks g ((b.label, id) :: labels) rest

def addEdges (labels : Labels) (g : Graph) : List Edge → Except BuildFailure Graph
  | [] => .ok g
  | e :: rest => do
    let source ← (labels.find e.source).mapError .violation
    let target ← (labels.find e.target).mapError .violation
    let g ← g.connectChecked source target
    addEdges labels g rest

def addEntry (labels : Labels) (g : Graph) : Option String → Except BuildFailure Graph
  | none => .ok g
  | some label => do
    let b ← (labels.find label).mapError .violation
    (g.designate b).mapError .fault

def build (d : Description) (tag : Nat) : Except BuildFailure Graph := do
  let (g, labels) ← (addBlocks (.empty tag) [] d.blocks).mapError .violation
  let g ← addEdges labels g d.edges
  addEntry labels g d.entry

end Description

end FlowLoops
