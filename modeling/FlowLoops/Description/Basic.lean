import FlowLoops.Json.Value

/-!
Descriptions of control-flow graphs, as they are written down: blocks and edges by label.
-/

namespace FlowLoops

namespace Description

/-- A described block. Its label names it; without a content the label is the content, too. -/
structure Block where
  label : String
  content : Option String
deriving DecidableEq, Repr

structure Edge where
  source : String
  target : String
deriving DecidableEq, Repr

end Description

structure Description where
  entry : Option String
  blocks : List Description.Block
  edges : List Description.Edge
deriving DecidableEq, Repr

namespace Description

def optionalText (s : Option String) : Json.Value := (s.map .string).getD .null

def Block.toValue (b : Block) : Json.Value :=
  .object [("label", .string b.label), ("content", optionalText b.content)]

def Edge.toValue (e : Edge) : Json.Value :=
  .object [("from", .string e.source), ("to", .string e.target)]

def toValue (d : Description) : Json.Value :=
  .object [
    ("entry", optionalText d.entry),
    ("blocks", .list (d.blocks.map Block.toValue)),
    ("edges", .list (d.edges.map Edge.toValue))]

def print (d : Description) : List Char := d.toValue.compact

end Description

end FlowLoops
