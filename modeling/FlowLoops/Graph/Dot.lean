import FlowLoops.Graph.Basic

/-!
Graphs in the Graphviz language: a statement for each block in creation order, labelled with its
content, then one for each edge in insertion order.
-/

namespace FlowLoops

namespace Dot

/-- Inside a label a quote and a backslash are escaped and a line break is written as one. -/
def escape : List Char → List Char
  | [] => []
  | '"' :: rest => '\\' :: '"' :: escape rest
  | '\\' :: rest => '\\' :: '\\' :: escape rest
  | '\n' :: rest => '\\' :: 'l' :: escape rest
  | c :: rest => c :: escape rest

def blockLine (index : Nat) (content : String) : String :=
  s!"    {index} [ label = \"" ++ String.ofList (escape content.toList) ++ "\" ]\n"

def edgeLine (e : Edge) : String := s!"    {e.source} -> {e.target} [ ]\n"

def blockLines : Nat → List Block → List String
  | _, [] => []
  | index, b :: rest => blockLine index b.content :: blockLines (index + 1) rest

end Dot

def Graph.dot (g : Graph) : String :=
  "digraph \x7b\n" ++ String.join (Dot.blockLines 0 g.blocks.toList) ++
    String.join (g.edges.toList.map Dot.edgeLine) ++ "\x7d\n"

end FlowLoops
