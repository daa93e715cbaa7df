import FlowLoops.Proofs.Graph.Dot
import FlowLoops.Proofs.Report.Agreement

/-! What the text of reports tells of them. A line shows by its beginning what it stands for,
whatever name or content follows, so that no content passes for the end of a loop or a section. -/

namespace FlowLoops
namespace Report

structure Outline where
  name : Option String
  blockCount : Nat
  loops : List (List String)
deriving DecidableEq, Repr

inductive Line
  | header (name : String)
  | count (n : Nat)
  | opening
  | content (s : String)
  | closing
deriving DecidableEq, Repr

def Line.text : Line → String
  | header name => "== " ++ name
  | count n => s!"Num blocks: {n}"
  | opening => "Loop \x7b"
  | content s => "  " ++ s
  | closing => "\x7d;"

def Line.ofLoop (contents : List String) : List Line :=
  .opening :: contents.map .content ++ [.closing]

namespace Outline

def lines (o : Outline) : List Line :=
  o.name.toList.map .header ++ .count o.blockCount :: o.loops.flatMap Line.ofLoop

def text (o : Outline) : String := "\n".intercalate (o.lines.map Line.text)

end Outline

def outline (named : Bool) (r : Report) : Except Fault Outline := do
  let loops ← r.loops.mapM r.contents
  return ⟨if named then some r.name else none, r.graph.blockCount, loops⟩

def outlines (rs : List Report) : Except Fault (List Outline) := rs.mapM (outline (rs.length > 1))

structure Unbroken (r : Report) : Prop where
  name : '\n' ∉ r.name.toList
  contents : ∀ s ∈ r.graph.contents, '\n' ∉ s.toList

section Reading

def readLine (line : List Char) : Option Line :=
  (line.dropPrefix? "== ".toList).map (fun name => .header (String.ofList name)) <|>
  (line.dropPrefix? "Num blocks: ".toList).map (fun n => .count (Nat.ofDigitChars 10 n 0)) <|>
  (line.dropPrefix? "  ".toList).map (fun content => .content (String.ofList content)) <|>
  (line.dropPrefix? "Loop \x7b".toList).map (fun _ => .opening) <|>
  (line.dropPrefix? "\x7d;".toList).map (fun _ => .closing)

/-- The lines of a text. A break is put at its end, so that the empty text has no line to read. -/
def readLines (text : String) : List Line :=
  ((text.toList ++ ['\n']).splitOn '\n').filterMap readLine

/-- What was read below a line: contents and loops that belong to lines above, and the reports that
are whole. -/
structure Below where
  contents : List String
  loops : List (List String)
  outlines : List Outline

/-- Reads one more line. Lines are read from the last to the first: a header adds to a report that
is already whole, so nothing has to be looked for ahead. -/
def Below.take : Line → Below → Below
  | .closing, b => { b with contents := [] }
  | .content s, b => { b with contents := s :: b.contents }
  | .opening, b => { b with contents := [], loops := b.contents :: b.loops }
  | .count n, b => { b with loops := [], outlines := ⟨none, n, b.loops⟩ :: b.outlines }
  | .header name, b =>
    { b with outlines := b.outlines.modifyHead fun o => { o with name := some name } }

def readText (text : String) : List Outline :=
  ((readLines text).foldr Below.take ⟨[], [], []⟩).outlines

theorem toList_count (n : Nat) :
    (Line.count n).text.toList = "Num blocks: ".toList ++ Nat.toDigits 10 n := by
  show ("Num blocks: " ++ toString n).toList = _
  rw [String.toList_append]
  simp

theorem readLine_text (l : Line) : readLine l.text.toList = some l := by
  cases l with
  | header name =>
    rw [Line.text, String.toList_append, readLine, Dot.dropPrefix?_append]
    exact congrArg (fun s => some (Line.header s)) String.ofList_toList
  | count n =>
    rw [toList_count, readLine, Dot.dropPrefix?_append]
    exact congrArg (fun n => some (Line.count n)) Nat.ofDigitChars_ten_toDigits
  | content s =>
    rw [Line.text, String.toList_append, readLine, Dot.dropPrefix?_append]
    exact congrArg (fun s => some (Line.content s)) String.ofList_toList
  | opening => decide
  | closing => decide

theorem take_contents (contents : List String) (b : Below) :
    (contents.map Line.content).foldr Below.take b =
      { b with contents := contents ++ b.contents } := by
  induction contents with
  | nil => rfl
  | cons s rest ih => rw [List.map_cons, List.foldr_cons, ih, Below.take, List.cons_append]

theorem take_ofLoop (contents : List String) (b : Below) :
    (Line.ofLoop contents).foldr Below.take b =
      { b with contents := [], loops := contents :: b.loops } := by
  rw [Line.ofLoop, List.cons_append, List.foldr_cons, List.foldr_append, List.foldr_cons,
    List.foldr_nil, take_contents, Below.take, Below.take, List.append_nil]

theorem take_loops (loops : List (List String)) (outlines : List Outline) :
    (loops.flatMap Line.ofLoop).foldr Below.take ⟨[], [], outlines⟩ = ⟨[], loops, outlines⟩ := by
  induction loops with
  | nil => rfl
  | cons contents rest ih => rw [List.flatMap_cons, List.foldr_append, ih, take_ofLoop]

theorem take_outline (o : Outline) (outlines : List Outline) :
    o.lines.foldr Below.take ⟨[], [], outlines⟩ = ⟨[], [], o :: outlines⟩ := by
  obtain ⟨name, blockCount, loops⟩ := o
  rw [Outline.lines, List.foldr_append, List.foldr_cons, take_loops]
  cases name with
  | none => rfl
  | some name => rfl

theorem take_outlines (os : List Outline) :
    (os.flatMap Outline.lines).foldr Below.take ⟨[], [], []⟩ = ⟨[], [], os⟩ := by
  induction os with
  | nil => rfl
  | cons o rest ih => rw [List.flatMap_cons, List.foldr_append, ih, take_outline]

end Reading

section Printing

def textOf (os : List Outline) : String := "\n".intercalate (os.map Outline.text)

theorem toList_intercalate_newline {lines : List String} (nonempty : lines ≠ []) :
    ("\n".intercalate lines).toList ++ ['\n'] = lines.flatMap fun l => l.toList ++ ['\n'] := by
  induction lines with
  | nil => exact absurd rfl nonempty
  | cons first rest ih =>
    cases rest with
    | nil => rw [String.intercalate_singleton, List.flatMap_singleton]
    | cons second rest =>
      rw [String.intercalate_cons_cons, String.toList_append, List.append_assoc,
        ih (List.cons_ne_nil _ _), String.toList_append, List.flatMap_cons (x := first)]
      rfl

theorem Outline.toList_text (o : Outline) :
    o.text.toList ++ ['\n'] = o.lines.flatMap fun l => l.text.toList ++ ['\n'] := by
  have nonempty : o.lines.map Line.text ≠ [] := by
    simp [Outline.lines]
  rw [Outline.text, toList_intercalate_newline nonempty, List.flatMap_map]

theorem toList_textOf {os : List Outline} (nonempty : os ≠ []) :
    (textOf os).toList ++ ['\n'] =
      (os.flatMap Outline.lines).flatMap fun l => l.text.toList ++ ['\n'] := by
  rw [textOf, toList_intercalate_newline (List.map_eq_nil_iff.not.mpr nonempty), List.flatMap_map,
    List.flatMap_assoc]
  exact List.flatMap_congr fun o _ => o.toList_text

theorem readLines_textOf {os : List Outline}
    (whole : ∀ o ∈ os, ∀ l ∈ o.lines, '\n' ∉ l.text.toList) :
    readLines (textOf os) = os.flatMap Outline.lines := by
  by_cases empty : os = []
  · rw [empty]
    decide
  · have apart : ∀ l ∈ (os.flatMap Outline.lines).map (·.text.toList), '\n' ∉ l := by
      rw [List.forall_mem_map, List.forall_mem_flatMap]
      exact whole
    have split := Dot.splitOn_lines apart []
    rw [List.flatMap_map, List.append_nil] at split
    have last : (([] : List Char).splitOn '\n').filterMap readLine = [] := by decide
    rw [readLines, toList_textOf empty, split, List.filterMap_append, last, List.append_nil,
      List.filterMap_map]
    exact (List.filterMap_congr fun l _ => readLine_text l).trans List.filterMap_some

theorem readText_textOf {os : List Outline}
    (whole : ∀ o ∈ os, ∀ l ∈ o.lines, '\n' ∉ l.text.toList) : readText (textOf os) = os := by
  rw [readText, readLines_textOf whole, take_outlines]

theorem map_text_ofLoop (contents : List String) :
    (Line.ofLoop contents).map Line.text = loopLines contents := by
  rw [Line.ofLoop, loopLines, List.map_append, List.map_cons, List.map_map]
  rfl

theorem text_eq (r : Report) : r.text = (r.outline false).map Outline.text := by
  rw [Report.text, outline]
  cases r.loops.mapM r.contents with
  | error e => rfl
  | ok loops =>
    have lines : (Outline.mk none r.graph.blockCount loops).lines.map Line.text =
        s!"Num blocks: {r.graph.blockCount}" :: (loops.map loopLines).flatten := by
      rw [Outline.lines, List.map_append, List.map_cons, List.map_flatMap, List.flatMap_def]
      simp only [map_text_ofLoop]
      rfl
    exact congrArg (fun lines => Except.ok ("\n".intercalate lines)) lines.symm

theorem text_named (name : String) (o : Outline) (unnamed : o.name = none) :
    ({ o with name := some name } : Outline).text = "== " ++ name ++ "\n" ++ o.text := by
  obtain ⟨_, blockCount, loops⟩ := o
  obtain rfl : _ = none := unnamed
  exact String.intercalate_cons_cons

theorem section_eq (named : Bool) (r : Report) :
    (do
      let text ← r.text
      return if named then "== " ++ r.name ++ "\n" ++ text else text) =
        (r.outline named).map Outline.text := by
  rw [text_eq, outline, outline]
  cases r.loops.mapM r.contents with
  | error e => rfl
  | ok loops =>
    cases named with
    | false => rfl
    | true => exact congrArg Except.ok (text_named r.name _ rfl).symm

theorem render_text (rs : List Report) : render rs .text = (outlines rs).map textOf := by
  have bodies : (rs.mapM fun r => do
      let text ← r.text
      return if rs.length > 1 then "== " ++ r.name ++ "\n" ++ text else text) =
        (outlines rs).map (List.map Outline.text) := by
    rw [outlines, ← mapM_map_except]
    refine congrArg (List.mapM · rs) (funext fun r => ?_)
    rw [← section_eq]
    simp only [decide_eq_true_eq]
  show sections rs Report.text = _
  rw [sections, bodies]
  cases outlines rs with
  | error e => rfl
  | ok os => rfl

end Printing

section Recovery

theorem outline_eq_ok {named : Bool} {r : Report} {o : Outline} :
    r.outline named = .ok o ↔ o.name = (if named then some r.name else none) ∧
      o.blockCount = r.graph.blockCount ∧ r.loops.mapM r.contents = .ok o.loops := by
  rw [outline]
  cases r.loops.mapM r.contents with
  | error e =>
    constructor
    · rintro ⟨⟩
    · rintro ⟨-, -, ⟨⟩⟩
  | ok loops =>
    obtain ⟨name, blockCount, found⟩ := o
    show Except.ok (Outline.mk _ _ _) = _ ↔ _
    rw [Except.ok.injEq, Outline.mk.injEq, Except.ok.injEq, eq_comm, eq_comm (a := blockCount)]

theorem Unbroken.contents_loop {r : Report} (unbroken : r.Unbroken) {loop : Loop}
    {contents : List String} (made : r.contents loop = .ok contents) :
    ∀ s ∈ contents, '\n' ∉ s.toList := by
  intro s hs
  obtain ⟨b, -, content⟩ := exists_of_mem_mapM made s hs
  exact unbroken.contents s (List.mem_of_getElem? (Graph.content_eq_ok_iff.mp content).2)

theorem Unbroken.line {r : Report} (unbroken : r.Unbroken) {named : Bool} {o : Outline}
    (made : r.outline named = .ok o) : ∀ l ∈ o.lines, '\n' ∉ l.text.toList := by
  obtain ⟨name, -, loops⟩ := outline_eq_ok.mp made
  intro l hl
  rw [Outline.lines, List.mem_append, List.mem_cons, List.mem_flatMap] at hl
  rcases hl with header | rfl | ⟨contents, found, hl⟩
  · obtain ⟨shown, hs, rfl⟩ := List.mem_map.mp header
    have same : shown = r.name := by
      rw [name, Option.mem_toList] at hs
      cases named with
      | false => cases hs
      | true => exact (Option.some.inj hs).symm
    rw [same, Line.text, String.toList_append, List.mem_append, not_or]
    exact ⟨by decide, unbroken.name⟩
  · rw [toList_count, List.mem_append, not_or]
    exact ⟨by decide, Dot.newline_notMem_toDigits _⟩
  · obtain ⟨loop, -, made⟩ := exists_of_mem_mapM loops contents found
    rw [Line.ofLoop, List.cons_append, List.mem_cons, List.mem_append, List.mem_singleton] at hl
    rcases hl with rfl | inside | rfl
    · decide
    · obtain ⟨s, hs, rfl⟩ := List.mem_map.mp inside
      rw [Line.text, String.toList_append, List.mem_append, not_or]
      exact ⟨by decide, unbroken.contents_loop made s hs⟩
    · decide

theorem outlines_eq_readText {rs : List Report} (unbroken : ∀ r ∈ rs, r.Unbroken) {text : String}
    (made : render rs .text = .ok text) : outlines rs = .ok (readText text) := by
  rw [render_text] at made
  cases outlined : outlines rs with
  | error e =>
    rw [outlined] at made
    cases made
  | ok os =>
    rw [outlined] at made
    have whole : ∀ o ∈ os, ∀ l ∈ o.lines, '\n' ∉ l.text.toList := by
      intro o ho
      obtain ⟨r, hr, made⟩ := exists_of_mem_mapM outlined o ho
      exact (unbroken r hr).line made
    rw [← Except.ok.inj made, readText_textOf whole]

end Recovery

/-- What the text says of each report is recovered from it, if no name and no content has a line
break. So such reports that have the same text are as many, they have as many blocks each and the
same contents along each loop, and the same names if there are several. -/
theorem text_determines_outlines :
    (∀ rs : List Report, (∀ r ∈ rs, r.Unbroken) → ∀ text, render rs .text = .ok text →
      outlines rs = .ok (readText text)) ∧
    (∀ rs : List Report, (∀ r ∈ rs, r.Owning) → ∃ text, render rs .text = .ok text) ∧
    ∀ rs ks : List Report, (∀ r ∈ rs, r.Unbroken) → (∀ k ∈ ks, k.Unbroken) →
      ∀ text, render rs .text = .ok text → render ks .text = .ok text →
        rs.length = ks.length ∧ List.Forall₂ (fun r k =>
          r.graph.blockCount = k.graph.blockCount ∧
          (∃ contents, r.loops.mapM r.contents = .ok contents ∧
            k.loops.mapM k.contents = .ok contents) ∧
          (1 < rs.length → r.name = k.name)) rs ks := by
  refine ⟨fun rs unbroken text made => outlines_eq_readText unbroken made,
    fun rs owning => exists_render owning .text, fun rs ks hr hk text made made' => ?_⟩
  have outlined : rs.mapM (outline (rs.length > 1)) = .ok (readText text) :=
    outlines_eq_readText hr made
  have outlined' : ks.mapM (outline (ks.length > 1)) = .ok (readText text) :=
    outlines_eq_readText hk made'
  have each := forall₂_of_mapM_eq_ok outlined outlined'
  have length := each.length_eq
  refine ⟨length, each.imp ?_⟩
  rintro r k ⟨o, first, second⟩
  obtain ⟨name, count, contents⟩ := outline_eq_ok.mp first
  obtain ⟨name', count', contents'⟩ := outline_eq_ok.mp second
  refine ⟨count.symm.trans count', ⟨_, contents, contents'⟩, fun several => ?_⟩
  rw [name, ← length, if_pos (decide_eq_true several), if_pos (decide_eq_true several)] at name'
  exact Option.some.inj name'

def posing (name : String) : Report :=
  ⟨name, .ofLists 0 ["Loop \x7b", "\x7d;", "", "  ", "Num blocks: 3", "== x"]
    [⟨0, 1⟩, ⟨1, 2⟩, ⟨2, 0⟩, ⟨3, 4⟩, ⟨4, 5⟩, ⟨5, 3⟩], [⟨[⟨0, 0⟩, ⟨0, 1⟩, ⟨0, 2⟩, ⟨0, 0⟩]⟩,
      ⟨[⟨0, 3⟩, ⟨0, 4⟩, ⟨0, 5⟩, ⟨0, 3⟩]⟩]⟩

theorem unbroken_posing {name : String} (whole : '\n' ∉ name.toList) : (posing name).Unbroken := by
  refine ⟨whole, ?_⟩
  rw [posing, Graph.contents_ofLists]
  decide

theorem owning_posing (name : String) : (posing name).Owning := by
  have owning : (posing "").Owning := by
    unfold Owning Graph.Owns
    decide
  exact owning

theorem posing_told :
    (∃ text, render [posing "Loop \x7b", posing "== x"] .text = .ok text ∧
      readText text = ["Loop \x7b", "== x"].map fun name =>
        ⟨some name, 6, [["Loop \x7b", "\x7d;", "", "Loop \x7b"],
          ["  ", "Num blocks: 3", "== x", "  "]]⟩) ∧
    ∃ text, render [posing ""] .text = .ok text ∧ render [posing "\x7d;"] .text = .ok text ∧
      ∃ contents, (posing "").loops.mapM (posing "").contents = .ok contents ∧
        (posing "\x7d;").loops.mapM (posing "\x7d;").contents = .ok contents := by
  have known : outlines [posing "Loop \x7b", posing "== x"] =
      .ok (["Loop \x7b", "== x"].map fun name =>
        ⟨some name, 6, [["Loop \x7b", "\x7d;", "", "Loop \x7b"],
          ["  ", "Num blocks: 3", "== x", "  "]]⟩) := by
    cbv
  have unbroken : ∀ r ∈ [posing "Loop \x7b", posing "== x"], r.Unbroken := by
    simp [unbroken_posing]
  have unbroken₁ : ∀ r ∈ [posing ""], r.Unbroken := by
    simp [unbroken_posing]
  have unbroken₂ : ∀ r ∈ [posing "\x7d;"], r.Unbroken := by
    simp [unbroken_posing]
  obtain ⟨text, made⟩ := text_determines_outlines.2.1 [posing "Loop \x7b", posing "== x"] (by
    simp [owning_posing])
  have read := text_determines_outlines.1 _ unbroken text made
  obtain ⟨lone, made₁⟩ := text_determines_outlines.2.1 [posing ""] (by simp [owning_posing])
  have made₂ : render [posing "\x7d;"] .text = .ok lone := made₁
  have alike := (text_determines_outlines.2.2 _ _ unbroken₁ unbroken₂ lone made₁ made₂).2
  obtain ⟨-, contents, -⟩ := (List.forall₂_cons.mp alike).1
  exact ⟨⟨text, made, Except.ok.inj (read.symm.trans known)⟩, lone, made₁, made₂, contents⟩

end Report
end FlowLoops
