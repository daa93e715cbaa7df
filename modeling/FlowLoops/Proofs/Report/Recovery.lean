import FlowLoops.Proofs.Graph.Growth
import FlowLoops.Proofs.Json.Members
import FlowLoops.Proofs.Json.Unambiguous
import FlowLoops.Proofs.Loop.Soundness
import FlowLoops.Proofs.Report.Agreement

/-! Reports in JSON. A summary of each report can be read back from what is rendered, whatever the
names and the contents. -/

namespace FlowLoops

namespace Json
open Value

section Access

def Tree.text? : Tree → Option String
  | .string ps => (Piece.chars? ps).map String.ofList
  | _ => none

def Tree.nat? : Tree → Option Nat
  | .number n => if n.text.all Char.isDigit then some (Nat.ofDigitChars 10 n.text 0) else none
  | _ => none

def Tree.optionalNat? : Tree → Option (Option Nat)
  | .null => some none
  | v => v.nat?.map some

def Tree.items? : Tree → Option (List Tree)
  | .list items => some items
  | _ => none

def Tree.field? (name : String) : Tree → Option Tree
  | .object ms =>
    match valuesOf ms name with
    | [v] => some v
    | _ => none
  | _ => none

theorem text?_tree (s : String) : (Value.string s).tree.text? = some s := by
  show (Piece.chars? (Piece.ofString s)).map String.ofList = some s
  rw [Piece.spell_ofString s, Option.map_some, String.ofList_toList]

theorem nat?_tree (n : Nat) : (Value.number n).tree.nat? = some n := by
  have digits : (Nat.toDigits 10 n).all Char.isDigit := by
    rw [List.all_eq_true]
    exact fun c hc => Nat.isDigit_of_mem_toDigits (by decide) (by decide) hc
  show (if (Nat.toDigits 10 n).all Char.isDigit then
    some (Nat.ofDigitChars 10 (Nat.toDigits 10 n) 0) else none) = some n
  rw [if_pos digits, Nat.ofDigitChars_toDigits (by decide) (by decide)]

theorem optionalNat?_tree (n : Option Nat) :
    ((n.map Value.number).getD .null).tree.optionalNat? = some n := by
  cases n with
  | none => rfl
  | some n =>
    show (Value.number n).tree.nat?.map some = some (some n)
    rw [nat?_tree, Option.map_some]

theorem items?_tree (items : List Value) :
    (Value.list items).tree.items? = some (items.map Value.tree) := by
  rw [Value.tree, trees_eq_map, Tree.items?]

theorem field?_tree {members : List (String × Value)} {name : String} {v : Value}
    (alone : members.filter (fun m => m.1 = name) = [(name, v)]) :
    (Value.object members).tree.field? name = some v.tree := by
  rw [Value.tree, Tree.field?, valuesOf_memberTrees, alone]
  rfl

end Access

end Json

namespace Report
open Json
variable {r : Report}

structure Summary where
  name : String
  blockCount : Nat
  entry : Option Nat
  loops : List (List (Nat × String))
deriving DecidableEq, Repr

def pair (r : Report) (b : BlockId) : Except Fault (Nat × String) := do
  return (b.index, ← r.graph.content b)

def summary (r : Report) : Except Fault Summary := do
  let loops ← r.loops.mapM fun l => l.blocks.mapM r.pair
  return ⟨r.name, r.graph.blockCount, r.graph.entry.map (·.index), loops⟩

def readPair (v : Tree) : Option (Nat × String) := do
  return (← (← v.field? "index").nat?, ← (← v.field? "content").text?)

def readSummary (v : Tree) : Option Summary := do
  let name ← (← v.field? "name").text?
  let blockCount ← (← v.field? "num_blocks").nat?
  let entry ← (← v.field? "entry").optionalNat?
  let loops ← (← (← v.field? "loops").items?).mapM fun l => do (← l.items?).mapM readPair
  return ⟨name, blockCount, entry, loops⟩

/-- The loops were detected on the graph. It may have grown since. -/
def Detected (r : Report) : Prop := ∃ g : Graph, g.Reachable ∧ g.loops = .ok r.loops ∧ g.Grows r.graph

theorem Detected.owning (detected : r.Detected) : r.Owning := by
  obtain ⟨g, hg, made, grows⟩ := detected
  exact fun l hl b hb => grows.owns (owns_of_mem_loops hg made l hl b hb)

theorem exists_mapM_recovered {ε α β γ : Type} {f : α → Except ε β} {g : α → Except ε γ}
    {read : β → Option γ} {l : List α}
    (each : ∀ a ∈ l, ∃ v c, f a = .ok v ∧ g a = .ok c ∧ read v = some c) :
    ∃ vs cs, l.mapM f = .ok vs ∧ l.mapM g = .ok cs ∧ vs.mapM read = some cs := by
  induction l with
  | nil => exact ⟨[], [], rfl, rfl, rfl⟩
  | cons a l ih =>
    obtain ⟨v, c, hv, hc, back⟩ := each a List.mem_cons_self
    obtain ⟨vs, cs, hvs, hcs, backs⟩ := ih fun b hb => each b (List.mem_cons_of_mem _ hb)
    refine ⟨v :: vs, c :: cs, ?_, ?_, ?_⟩
    · rw [List.mapM_cons, hv, hvs]
      rfl
    · rw [List.mapM_cons, hc, hcs]
      rfl
    · rw [List.mapM_cons, back, backs]
      rfl

theorem readPair_blockValue {b : BlockId} (hb : r.graph.Owns b) : ∃ v p,
    r.blockValue b = .ok v ∧ r.pair b = .ok p ∧ readPair v.tree = some p := by
  obtain ⟨s, content⟩ := Graph.exists_content hb
  refine ⟨.object [("index", .number b.index), ("content", .string s)], (b.index, s), ?_, ?_, ?_⟩
  · rw [blockValue, content]
    rfl
  · rw [pair, content]
    rfl
  · rw [readPair, field?_tree rfl, field?_tree rfl]
    simp only [Option.bind_eq_bind, Option.bind_some, nat?_tree, text?_tree, Option.pure_def]

theorem Owning.recovered (owning : r.Owning) : ∃ v s,
    r.toValue = .ok v ∧ r.summary = .ok s ∧ readSummary v.tree = some s := by
  obtain ⟨values, pairs, hv, hp, back⟩ : ∃ values pairs,
      (r.loops.mapM fun l => l.blocks.mapM r.blockValue) = .ok values ∧
      (r.loops.mapM fun l => l.blocks.mapM r.pair) = .ok pairs ∧
      (values.mapM fun vs => vs.mapM fun v => readPair v.tree) = some pairs := by
    apply exists_mapM_recovered
    intro l hl
    apply exists_mapM_recovered
    exact fun b hb => readPair_blockValue (owning l hl b hb)
  have loops : ((values.map Value.list).map Value.tree).mapM
      (fun l => do (← l.items?).mapM readPair) = some pairs := by
    rw [← back, List.map_map, List.mapM_map]
    refine congrArg (List.mapM · values) (funext fun vs => ?_)
    show ((Value.list vs).tree.items?).bind (List.mapM readPair) = _
    rw [items?_tree, Option.bind_some, List.mapM_map]
    rfl
  have entry : (r.graph.entry.map fun b => Value.number b.index) =
      (r.graph.entry.map (·.index)).map Value.number := by
    rw [Option.map_map]
    rfl
  refine ⟨.object [("name", .string r.name), ("num_blocks", .number r.graph.blockCount),
    ("entry", ((r.graph.entry.map (·.index)).map Value.number).getD .null),
    ("loops", .list (values.map .list))],
    ⟨r.name, r.graph.blockCount, r.graph.entry.map (·.index), pairs⟩, ?_, ?_, ?_⟩
  · rw [toValue, hv, entry]
    rfl
  · rw [summary, hp]
    rfl
  · rw [readSummary, field?_tree rfl, field?_tree rfl, field?_tree rfl, field?_tree rfl]
    simp only [Option.bind_eq_bind, Option.bind_some, text?_tree, nat?_tree, optionalNat?_tree,
      items?_tree, Option.pure_def]
    exact congrArg (Option.bind · _) loops

/-- The text of reports has one tree, a list with a value for each report, from which the summaries are
read. Reports that are rendered alike have the same summaries. -/
theorem json_report_recovered :
    (∀ rs : List Report, (∀ r ∈ rs, r.Detected) → ∃ text items summaries,
      render rs .json = .ok text ∧ (∀ v, IsText v text.toList ↔ v = .list items) ∧
        rs.mapM summary = .ok summaries ∧ items.mapM readSummary = some summaries) ∧
    ∀ rs ks : List Report, (∀ r ∈ rs, r.Detected) → (∀ k ∈ ks, k.Detected) →
      render rs .json = render ks .json → rs.mapM summary = ks.mapM summary := by
  have recovered : ∀ rs : List Report, (∀ r ∈ rs, r.Detected) → ∃ text items summaries,
      render rs .json = .ok text ∧ (∀ v, IsText v text.toList ↔ v = .list items) ∧
        rs.mapM summary = .ok summaries ∧ items.mapM readSummary = some summaries := by
    intro rs detected
    obtain ⟨values, summaries, hv, hs, back⟩ : ∃ values summaries, rs.mapM toValue = .ok values ∧
        rs.mapM summary = .ok summaries ∧
        values.mapM (fun v => readSummary v.tree) = some summaries :=
      exists_mapM_recovered fun r hr => (detected r hr).owning.recovered
    have shown := (Value.list values).isText_pretty 0
    rw [Value.tree, Value.trees_eq_map] at shown
    refine ⟨String.ofList ((Value.list values).pretty 0), values.map Value.tree, summaries,
      ?_, fun v => ?_, hs, ?_⟩
    · rw [render, hv]
      rfl
    · rw [String.toList_ofList]
      exact ⟨fun h => h.unique shown, fun h => h ▸ shown⟩
    · rw [List.mapM_map]
      exact back
  refine ⟨recovered, fun rs ks hr hk same => ?_⟩
  obtain ⟨text, items, summaries, made, only, hs, back⟩ := recovered rs hr
  obtain ⟨text', items', summaries', made', only', hs', back'⟩ := recovered ks hk
  obtain rfl := Except.ok.inj (made.symm.trans (same.trans made'))
  have same : Tree.list items = .list items' := (only' _).mp ((only _).mpr rfl)
  obtain rfl := Tree.list.inj same
  rw [hs, hs', Option.some.inj (back.symm.trans back')]

def knot : Report := ⟨"k\"", .ofLists 0 ["\\\n\x01"] [⟨0, 0⟩], [⟨[⟨0, 0⟩, ⟨0, 0⟩]⟩]⟩

theorem detected_knot : knot.Detected :=
  ⟨_, Graph.reachable_ofLists (by decide), by cbv, .refl⟩

theorem recovered_knot : ∃ text items, render [knot, knot] .json = .ok text ∧
    IsText (.list items) text.toList ∧ items.mapM readSummary = some
      [⟨"k\"", 1, none, [[(0, "\\\n\x01"), (0, "\\\n\x01")]]⟩,
        ⟨"k\"", 1, none, [[(0, "\\\n\x01"), (0, "\\\n\x01")]]⟩] := by
  have detected : ∀ r ∈ [knot, knot], r.Detected := by
    simpa using detected_knot
  obtain ⟨text, items, summaries, made, only, hs, back⟩ := json_report_recovered.1 _ detected
  have known : [knot, knot].mapM summary = .ok
      [⟨"k\"", 1, none, [[(0, "\\\n\x01"), (0, "\\\n\x01")]]⟩,
        ⟨"k\"", 1, none, [[(0, "\\\n\x01"), (0, "\\\n\x01")]]⟩] := by
    cbv
  have again := json_report_recovered.2 _ _ detected detected rfl
  rw [← Except.ok.inj (hs.symm.trans (again.trans known))]
  exact ⟨text, items, made, (only _).mpr rfl, back⟩

end Report

end FlowLoops
