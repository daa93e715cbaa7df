import FlowLoops.Graph.Dot
import FlowLoops.Json.Value
import FlowLoops.Loop.Basic

/-!
Reports: a graph, where it came from, and its loops. Reports are rendered as text, as JSON, or as
the graphs themselves.
-/

namespace FlowLoops

structure Report where
  name : String
  graph : Graph
  loops : List Loop
deriving DecidableEq, Repr

inductive Format where
  | text | json | dot
deriving DecidableEq, Repr

namespace Format

def name : Format → String
  | text => "text"
  | json => "json"
  | dot => "dot"

def ofName? (s : String) : Option Format := [text, json, dot].find? fun f => f.name = s

def unknownText : String := "invalid format"

end Format

namespace Report

def contents (r : Report) (l : Loop) : Except Fault (List String) := l.blocks.mapM r.graph.content

def loopLines (contents : List String) : List String :=
  "Loop \x7b" :: contents.map ("  " ++ ·) ++ ["\x7d;"]

def text (r : Report) : Except Fault String := do
  let loops ← r.loops.mapM r.contents
  return "\n".intercalate (s!"Num blocks: {r.graph.blockCount}" :: (loops.map loopLines).flatten)

def blockValue (r : Report) (b : BlockId) : Except Fault Json.Value := do
  let content ← r.graph.content b
  return .object [("index", .number b.index), ("content", .string content)]

def toValue (r : Report) : Except Fault Json.Value := do
  let loops ← r.loops.mapM fun l => l.blocks.mapM r.blockValue
  return .object [
    ("name", .string r.name),
    ("num_blocks", .number r.graph.blockCount),
    ("entry", (r.graph.entry.map fun b => Json.Value.number b.index).getD .null),
    ("loops", .list (loops.map .list))]

/-- Sections follow one another, each under its name when there are several. -/
def sections (reports : List Report) (body : Report → Except Fault String) :
    Except Fault String := do
  let bodies ← reports.mapM fun r => do
    let text ← body r
    return if reports.length > 1 then "== " ++ r.name ++ "\n" ++ text else text
  return "\n".intercalate bodies

def render (reports : List Report) : Format → Except Fault String
  | .text => sections reports text
  | .dot => sections reports fun r => .ok r.graph.dot
  | .json => do
    let values ← reports.mapM toValue
    return String.ofList ((Json.Value.list values).pretty 0)

end Report

end FlowLoops
