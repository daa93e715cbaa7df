import FlowLoops.Graph.Dot
import FlowLoops.Proofs.Graph.Growth

/-! What the text of a graph in the Graphviz language tells of it. A label holds no line break and
ends at the first quote that is not escaped, so the text is read line by line and no content passes
for a statement. -/

namespace FlowLoops
namespace Dot

inductive Statement
  | block (index : Nat) (content : String)
  | edge (edge : Edge)
deriving DecidableEq

namespace Statement

def line : Statement → List Char
  | block index content => "    ".toList ++ (Nat.toDigits 10 index ++
      (" [ label = \"".toList ++ (escape content.toList ++ "\" ]".toList)))
  | edge e => "    ".toList ++ (Nat.toDigits 10 e.source ++
      (" -> ".toList ++ (Nat.toDigits 10 e.target ++ " [ ]".toList)))

def content? : Statement → Option String
  | block _ content => some content
  | edge _ => none

def edge? : Statement → Option Edge
  | block _ _ => none
  | edge e => some e

end Statement

def readLabel : List Char → Option (List Char × List Char)
  | [] => none
  | '"' :: rest => some ([], rest)
  | '\\' :: '"' :: rest => (readLabel rest).map fun p => ('"' :: p.1, p.2)
  | '\\' :: '\\' :: rest => (readLabel rest).map fun p => ('\\' :: p.1, p.2)
  | '\\' :: 'l' :: rest => (readLabel rest).map fun p => ('\n' :: p.1, p.2)
  | '\\' :: _ => none
  | c :: rest => (readLabel rest).map fun p => (c :: p.1, p.2)

def readNumber (text : List Char) : Nat × List Char :=
  (Nat.ofDigitChars 10 (text.takeWhile Char.isDigit) 0, text.dropWhile Char.isDigit)

def readContent (rest : List Char) : Option String := do
  let label ← rest.dropPrefix? " [ label = \"".toList
  let (content, rest) ← readLabel label
  if rest = " ]".toList then some (String.ofList content) else none

def readTarget (rest : List Char) : Option Nat := do
  let (target, rest) := readNumber (← rest.dropPrefix? " -> ".toList)
  if rest = " [ ]".toList then some target else none

/-- Reads what a line states. The first and the last line of a text state nothing. -/
def readStatement (line : List Char) : Option Statement := do
  let (index, rest) := readNumber (← line.dropPrefix? "    ".toList)
  match readContent rest with
  | some content => some (.block index content)
  | none => (readTarget rest).map fun target => .edge ⟨index, target⟩

def readStatements (text : String) : List Statement :=
  (text.toList.splitOn '\n').filterMap readStatement

def read (text : String) : List String × List Edge :=
  ((readStatements text).filterMap Statement.content?,
    (readStatements text).filterMap Statement.edge?)

def blockStatements : Nat → List String → List Statement
  | _, [] => []
  | index, content :: rest => .block index content :: blockStatements (index + 1) rest

end Dot

def Graph.statements (g : Graph) : List Dot.Statement :=
  Dot.blockStatements 0 g.contents ++ g.edges.toList.map .edge

namespace Dot

section Reading

theorem readLabel_plain {c : Char} (quote : c ≠ '"') (backslash : c ≠ '\\') (rest : List Char) :
    readLabel (c :: rest) = (readLabel rest).map fun p => (c :: p.1, p.2) := by
  have other (next : Char) : ∀ after, c = '\\' → rest = next :: after → False :=
    fun _ same _ => backslash same
  rw [readLabel]
  · exact quote
  · exact other '"'
  · exact other '\\'
  · exact other 'l'
  · exact backslash

theorem readLabel_escape (content rest : List Char) :
    readLabel (escape content ++ '"' :: rest) = some (content, rest) := by
  fun_induction escape content with
  | case1 => rfl
  | case2 content ih => simp only [List.cons_append, readLabel, ih, Option.map_some]
  | case3 content ih => simp only [List.cons_append, readLabel, ih, Option.map_some]
  | case4 content ih => simp only [List.cons_append, readLabel, ih, Option.map_some]
  | case5 c content quote backslash newline ih =>
    rw [List.cons_append, readLabel_plain quote backslash, ih, Option.map_some]

example : readLabel "a\\\"\\l\\\\l\" ]".toList = some ("a\"\n\\l".toList, " ]".toList) := by
  decide

theorem newline_notMem_escape (content : List Char) : '\n' ∉ escape content := by
  fun_induction escape content with
  | case1 => exact List.not_mem_nil
  | case2 content ih => simpa using ih
  | case3 content ih => simpa using ih
  | case4 content ih => simpa using ih
  | case5 c content quote backslash newline ih =>
    rw [List.mem_cons, not_or]
    exact ⟨fun same => newline same.symm, ih⟩

theorem isDigit_of_mem_toDigits {n : Nat} {c : Char} (hc : c ∈ Nat.toDigits 10 n) :
    c.isDigit = true := Nat.isDigit_of_mem_toDigits (by decide) (by decide) hc

theorem newline_notMem_toDigits (n : Nat) : '\n' ∉ Nat.toDigits 10 n := by
  intro h
  have digit := isDigit_of_mem_toDigits h
  exact absurd digit (by decide)

theorem readNumber_toDigits (n : Nat) {c : Char} (rest : List Char) (stops : c.isDigit = false) :
    readNumber (Nat.toDigits 10 n ++ c :: rest) = (n, c :: rest) := by
  have digits : ∀ d ∈ Nat.toDigits 10 n, d.isDigit = true := fun d => isDigit_of_mem_toDigits
  have stop : ¬ c.isDigit = true := by simp [stops]
  rw [readNumber, List.takeWhile_append_of_pos digits, List.dropWhile_append_of_pos digits,
    List.takeWhile_cons_of_neg stop, List.dropWhile_cons_of_neg stop, List.append_nil,
    Nat.ofDigitChars_ten_toDigits]

theorem dropPrefix?_append (lead rest : List Char) : (lead ++ rest).dropPrefix? lead = some rest :=
  List.dropPrefix?_append_of_beq rest BEq.rfl

theorem readContent_label (content : String) :
    readContent (" [ label = \"".toList ++ (escape content.toList ++ "\" ]".toList)) =
      some content := by
  have label : readLabel (escape content.toList ++ "\" ]".toList) =
      some (content.toList, " ]".toList) := readLabel_escape content.toList _
  rw [readContent, dropPrefix?_append, Option.bind_eq_bind, Option.bind_some, label]
  exact congrArg some (String.ofList_toList)

theorem readTarget_arrow (target : Nat) :
    readTarget (" -> ".toList ++ (Nat.toDigits 10 target ++ " [ ]".toList)) = some target := by
  have number : readNumber (Nat.toDigits 10 target ++ " [ ]".toList) = (target, " [ ]".toList) :=
    readNumber_toDigits target _ (by decide)
  rw [readTarget, dropPrefix?_append, Option.bind_eq_bind, Option.bind_some, number]
  rfl

theorem readContent_arrow (rest : List Char) : readContent (" -> ".toList ++ rest) = none := rfl

theorem readStatement_line (s : Statement) : readStatement s.line = some s := by
  cases s with
  | block index content =>
    have number : readNumber (Nat.toDigits 10 index ++
        (" [ label = \"".toList ++ (escape content.toList ++ "\" ]".toList))) =
          (index, " [ label = \"".toList ++ (escape content.toList ++ "\" ]".toList)) :=
      readNumber_toDigits index _ (by decide)
    rw [Statement.line, readStatement, dropPrefix?_append, Option.bind_eq_bind, Option.bind_some,
      number]
    simp only [readContent_label]
  | edge e =>
    have number : readNumber (Nat.toDigits 10 e.source ++
        (" -> ".toList ++ (Nat.toDigits 10 e.target ++ " [ ]".toList))) =
          (e.source, " -> ".toList ++ (Nat.toDigits 10 e.target ++ " [ ]".toList)) :=
      readNumber_toDigits e.source _ (by decide)
    rw [Statement.line, readStatement, dropPrefix?_append, Option.bind_eq_bind, Option.bind_some,
      number]
    simp only [readContent_arrow, readTarget_arrow, Option.map_some]

theorem newline_notMem_line (s : Statement) : '\n' ∉ s.line := by
  cases s with
  | block index content =>
    simp only [Statement.line, List.mem_append, newline_notMem_toDigits, newline_notMem_escape]
    decide
  | edge e =>
    simp only [Statement.line, List.mem_append, newline_notMem_toDigits]
    decide

end Reading

section Printing

theorem toList_blockLine (index : Nat) (content : String) :
    (blockLine index content).toList = (Statement.block index content).line ++ ['\n'] := by
  have shown : blockLine index content = "    " ++ toString index ++ " [ label = \"" ++
    String.ofList (escape content.toList) ++ "\" ]\n" := rfl
  rw [shown]
  simp [Statement.line]

theorem toList_edgeLine (e : Edge) :
    (edgeLine e).toList = (Statement.edge e).line ++ ['\n'] := by
  have shown : edgeLine e = "    " ++ toString e.source ++ " -> " ++ toString e.target ++
    " [ ]\n" := rfl
  rw [shown]
  simp [Statement.line]

theorem flatMap_blockLines (index : Nat) (blocks : List Block) :
    (blockLines index blocks).flatMap String.toList =
      (blockStatements index (blocks.map (·.content))).flatMap fun s => s.line ++ ['\n'] := by
  induction blocks generalizing index with
  | nil => rfl
  | cons b rest ih =>
    rw [blockLines, List.flatMap_cons, toList_blockLine, ih, List.map_cons, blockStatements,
      List.flatMap_cons]

theorem flatMap_edgeLines (edges : List Edge) :
    (edges.map edgeLine).flatMap String.toList =
      (edges.map Statement.edge).flatMap fun s => s.line ++ ['\n'] := by
  rw [List.flatMap_map, List.flatMap_map]
  simp only [toList_edgeLine]

theorem toList_dot (g : Graph) :
    g.dot.toList = "digraph \x7b".toList ++ '\n' ::
      ((g.statements.flatMap fun s => s.line ++ ['\n']) ++ ("\x7d".toList ++ ['\n'])) := by
  have blocks := flatMap_blockLines 0 g.blocks.toList
  have edges := flatMap_edgeLines g.edges.toList
  rw [Graph.dot, Graph.statements, Graph.contents, List.flatMap_append, ← blocks, ← edges]
  simp only [String.toList_append, String.toList_join, List.append_assoc]
  rfl

theorem splitOn_lines {lines : List (List Char)} (whole : ∀ l ∈ lines, '\n' ∉ l)
    (rest : List Char) :
    ((lines.flatMap fun l => l ++ ['\n']) ++ rest).splitOn '\n' = lines ++ rest.splitOn '\n' := by
  induction lines with
  | nil => rfl
  | cons l lines ih =>
    obtain ⟨first, others⟩ := List.forall_mem_cons.mp whole
    rw [List.flatMap_cons, List.append_assoc, List.append_assoc, List.singleton_append,
      List.splitOn_append_cons_self_of_not_mem first, ih others, List.cons_append]

theorem splitOn_dot (g : Graph) :
    g.dot.toList.splitOn '\n' =
      "digraph \x7b".toList :: (g.statements.map Statement.line ++ ["\x7d".toList, []]) := by
  have whole : ∀ l ∈ g.statements.map Statement.line, '\n' ∉ l := by
    rw [List.forall_mem_map]
    exact fun s _ => newline_notMem_line s
  have last : ("\x7d".toList ++ ['\n']).splitOn '\n' = ["\x7d".toList, []] := by decide
  have split := splitOn_lines whole ("\x7d".toList ++ ['\n'])
  rw [List.flatMap_map, last] at split
  rw [toList_dot, List.splitOn_append_cons_self_of_not_mem (by decide), split]

end Printing

section Recovery

theorem readStatements_dot (g : Graph) : readStatements g.dot = g.statements := by
  have first : readStatement "digraph \x7b".toList = none := by decide
  have last : ["\x7d".toList, []].filterMap readStatement = [] := by decide
  rw [readStatements, splitOn_dot, List.filterMap_cons_none first, List.filterMap_append, last,
    List.append_nil, List.filterMap_map]
  exact (List.filterMap_congr fun s _ => readStatement_line s).trans List.filterMap_some

theorem filterMap_blockStatements (index : Nat) (contents : List String) :
    (blockStatements index contents).filterMap Statement.content? = contents ∧
      (blockStatements index contents).filterMap Statement.edge? = [] := by
  induction contents generalizing index with
  | nil => exact ⟨rfl, rfl⟩
  | cons content rest ih =>
    obtain ⟨blocks, edges⟩ := ih (index + 1)
    exact ⟨congrArg (content :: ·) blocks, edges⟩

theorem filterMap_edges (edges : List Edge) :
    (edges.map Statement.edge).filterMap Statement.content? = [] ∧
      (edges.map Statement.edge).filterMap Statement.edge? = edges := by
  rw [List.filterMap_map, List.filterMap_map]
  exact ⟨List.filterMap_eq_nil_iff.mpr fun _ _ => rfl, List.filterMap_some⟩

theorem read_dot (g : Graph) : read g.dot = (g.contents, g.edges.toList) := by
  obtain ⟨blocks, noEdge⟩ := filterMap_blockStatements 0 g.contents
  obtain ⟨noBlock, edges⟩ := filterMap_edges g.edges.toList
  rw [read, readStatements_dot, Graph.statements, List.filterMap_append, List.filterMap_append,
    blocks, noEdge, noBlock, edges, List.append_nil, List.nil_append]

end Recovery
end Dot

/-- The lines of the text of a graph state its blocks and its edges in their order, and nothing
else, whatever the contents are. So they can be recovered from the text, and graphs have the same
text if and only if they have the same contents and the same edges. -/
theorem Graph.dot_determines_graph :
    (∀ g : Graph, Dot.readStatements g.dot = g.statements) ∧
    (∀ g : Graph, Dot.read g.dot = (g.contents, g.edges.toList)) ∧
    ∀ g h : Graph, g.dot = h.dot ↔ g.contents = h.contents ∧ g.edges.toList = h.edges.toList := by
  refine ⟨Dot.readStatements_dot, Dot.read_dot, fun g h => ⟨fun same => ?_, ?_⟩⟩
  · have recovered := congrArg Dot.read same
    rw [Dot.read_dot, Dot.read_dot] at recovered
    exact Prod.mk.inj recovered
  · rintro ⟨contents, edges⟩
    have statements : g.statements = h.statements := by
      rw [Graph.statements, Graph.statements, contents, edges]
    apply String.toList_inj.mp
    rw [Dot.toList_dot, Dot.toList_dot, statements]

end FlowLoops
