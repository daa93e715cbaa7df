import FlowLoops.Proofs.Description.Grammar
import FlowLoops.Proofs.Json.Printing

/-! Printed descriptions. What is printed is a text of the description, with all of its fields, and is
parsed as that description. -/

namespace FlowLoops

namespace Json
variable {α : Type}

theorem isString_tree (s : String) : IsString (Value.string s).tree s :=
  .intro (Piece.spell_ofString s)

theorem isList_trees {R : Tree → α → Prop} {toValue : α → Value}
    (each : ∀ a, R (toValue a).tree a) (as : List α) :
    IsList R (Value.list (as.map toValue)).tree as := by
  rw [Value.tree, Value.trees_eq_map, List.map_map]
  apply IsList.intro
  induction as with
  | nil => exact .nil
  | cons a as ih => exact .cons (each a) ih

end Json

namespace Description
open Json

theorem isOptionalString_tree (s : Option String) : IsOptionalString (optionalText s).tree s := by
  cases s with
  | none => exact .null
  | some s => exact .string (Piece.spell_ofString s)

theorem Block.written_toValue (b : Block) : Written b.toValue.tree b :=
  .object (keyed_memberTrees _) (given_memberTrees rfl (isString_tree b.label))
    (given_memberTrees rfl (isOptionalString_tree b.content))

theorem Edge.written_toValue (e : Edge) : Written e.toValue.tree e :=
  .object (keyed_memberTrees _) (given_memberTrees rfl (isString_tree e.source))
    (given_memberTrees rfl (isString_tree e.target))

theorem written_toValue (d : Description) : Written d.toValue.tree d :=
  .object (keyed_memberTrees _) (given_memberTrees rfl (isOptionalString_tree d.entry))
    (given_memberTrees rfl (isList_trees Block.written_toValue d.blocks))
    (given_memberTrees rfl (isList_trees Edge.written_toValue d.edges))

theorem parse_print (d : Description) : parse d.print = .ok d := by
  have shown : IsText d.toValue.tree d.print := d.toValue.isText_compact
  exact parse_eq_ok_iff.mpr ⟨_, d.written_toValue, shown⟩

/-- Printing can be undone by parsing, so different descriptions are printed differently, and what is
printed of a parsed text stays the same when it is parsed and printed again. -/
theorem print_round_trip :
    (∀ d : Description, parse d.print = .ok d) ∧ Function.Injective print ∧
      ∀ text : List Char, ((parse text).map print).bind (fun printed => (parse printed).map print) =
        (parse text).map print := by
  refine ⟨parse_print, fun d d' same => ?_, fun text => ?_⟩
  · have parsed : parse d.print = .ok d' := same ▸ parse_print d'
    exact Except.ok.inj ((parse_print d).symm.trans parsed)
  · cases parse text with
    | error r => rfl
    | ok d =>
      show (parse d.print).map print = _
      rw [parse_print]

theorem print_round_trip_escapes :
    parse (print ⟨some "\"", [⟨"\"", none⟩, ⟨"é😀", some "\\\n\t\x07"⟩], [⟨"\"", "é😀"⟩]⟩) =
      .ok ⟨some "\"", [⟨"\"", none⟩, ⟨"é😀", some "\\\n\t\x07"⟩], [⟨"\"", "é😀"⟩]⟩ :=
  print_round_trip.1 _

end Description

end FlowLoops
