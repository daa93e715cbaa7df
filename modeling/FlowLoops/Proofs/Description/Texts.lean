import FlowLoops.Proofs.Description.Grammar
import FlowLoops.Proofs.Json.Printing

/-! Layout and flaws of descriptions. However a description is written, it is parsed as itself; a text
with a flawed record is not parsed at all. -/

namespace FlowLoops.Description
open Json
variable {v w : Tree} {d : Description}

inductive FlawedObject (fields needed : List String) : Tree → Prop
  | repeated {ms : List Member} {name : String} (known : name ∈ fields)
    (again : 2 ≤ (valuesOf ms name).length) : FlawedObject fields needed (.object ms)
  | lacking {ms : List Member} {name : String} (known : name ∈ needed)
    (missing : valuesOf ms name = []) : FlawedObject fields needed (.object ms)

inductive Has (name : String) (place : Nat) : Tree → Tree → Prop
  | object {ms : List Member} {w : Tree} (given : w ∈ valuesOf ms name) : Has name place (.object ms) w
  | list {items : List Tree} {w : Tree} (given : items[place]? = some w) :
    Has name place (.list items) w

inductive Flawed (v : Tree) : Prop
  | graph (flawed : FlawedObject ["entry", "blocks", "edges"] ["blocks"] v)
  | noEdges (has : Has "edges" 2 v .null)
  | block {items : List Tree} {w : Tree} (has : Has "blocks" 1 v (.list items)) (listed : w ∈ items)
    (flawed : FlawedObject ["label", "content"] ["label"] w)
  | edge {items : List Tree} {w : Tree} (has : Has "edges" 2 v (.list items)) (listed : w ∈ items)
    (flawed : FlawedObject ["from", "to"] ["from", "to"] w)

theorem not_flawedObject {fields needed : List String} {ms : List Member}
    (once : ∀ name ∈ fields, (valuesOf ms name).length ≤ 1)
    (there : ∀ name ∈ needed, valuesOf ms name ≠ []) : ¬ FlawedObject fields needed (.object ms) := by
  intro flawed
  cases flawed with
  | repeated known again => exact absurd (once _ known) (Nat.not_le.mpr again)
  | lacking known missing => exact there _ known missing

theorem Block.Written.not_flawed {b : Block} (written : Block.Written v b) :
    ¬ FlawedObject ["label", "content"] ["label"] v := by
  cases written with
  | list => exact fun flawed => nomatch flawed
  | object _ hl hc =>
    apply not_flawedObject
    · exact List.forall_mem_cons.mpr ⟨hl.length_le, List.forall_mem_singleton.mpr hc.length_le⟩
    · exact List.forall_mem_singleton.mpr hl.ne_nil

theorem Edge.Written.not_flawed {e : Edge} (written : Edge.Written v e) :
    ¬ FlawedObject ["from", "to"] ["from", "to"] v := by
  cases written with
  | list => exact fun flawed => nomatch flawed
  | object _ hs ht =>
    apply not_flawedObject
    · exact List.forall_mem_cons.mpr ⟨hs.length_le, List.forall_mem_singleton.mpr ht.length_le⟩
    · exact List.forall_mem_cons.mpr ⟨hs.ne_nil, List.forall_mem_singleton.mpr ht.ne_nil⟩

theorem Written.blocks (written : Written v d) (has : Has "blocks" 1 v w) :
    IsList Block.Written w d.blocks := by
  cases written with
  | object _ _ hb =>
    cases has with
    | object given =>
      obtain ⟨blocks, same, holds⟩ := hb.of_mem given
      obtain rfl := Option.some.inj same
      exact holds
  | short _ hb =>
    cases has with
    | list given => exact Option.some.inj given ▸ hb
  | list _ hb =>
    cases has with
    | list given => exact Option.some.inj given ▸ hb

theorem Written.edges (written : Written v d) (has : Has "edges" 2 v w) :
    IsList Edge.Written w d.edges := by
  cases written with
  | object _ _ _ hs =>
    cases has with
    | object given =>
      obtain ⟨edges, rfl, holds⟩ := hs.of_mem given
      exact holds
  | short =>
    cases has with
    | list given => cases given
  | list _ _ hs =>
    cases has with
    | list given => exact Option.some.inj given ▸ hs

theorem Written.not_flawedObject (written : Written v d) :
    ¬ FlawedObject ["entry", "blocks", "edges"] ["blocks"] v := by
  cases written with
  | short => exact fun flawed => nomatch flawed
  | list => exact fun flawed => nomatch flawed
  | object _ he hb hs =>
    apply Description.not_flawedObject
    · exact List.forall_mem_cons.mpr ⟨he.length_le, List.forall_mem_cons.mpr
        ⟨hb.length_le, List.forall_mem_singleton.mpr hs.length_le⟩⟩
    · exact List.forall_mem_singleton.mpr hb.ne_nil

theorem Written.not_flawed (written : Written v d) : ¬ Flawed v := by
  intro flawed
  cases flawed with
  | graph flawed => exact written.not_flawedObject flawed
  | noEdges has => cases written.edges has
  | block has listed flawed =>
    obtain ⟨b, block⟩ := (written.blocks has).exists_of_mem listed
    exact block.not_flawed flawed
  | edge has listed flawed =>
    obtain ⟨e, edge⟩ := (written.edges has).exists_of_mem listed
    exact edge.not_flawed flawed

/-- A description is parsed from each of its texts. A text that is not JSON, or that has a flawed
record, is rejected. -/
theorem texts_parsed_or_rejected :
    (∀ (d : Description) (v : Tree) (text : List Char), Written v d → IsText v text →
      parse text = .ok d) ∧
    ∀ text : List Char, (¬ ∃ v, IsText v text) ∨ (∃ v, IsText v text ∧ Flawed v) →
      ∃ r, parse text = .error r := by
  constructor
  · intro d v text written shown
    exact parse_eq_ok_iff.mpr ⟨v, written, shown⟩
  · intro text bad
    cases parsed : parse text with
    | error r => exact ⟨r, rfl⟩
    | ok d =>
      obtain ⟨v, written, shown⟩ := parse_eq_ok_iff.mp parsed
      rcases bad with none | ⟨w, shown', flawed⟩
      · exact absurd ⟨v, shown⟩ none
      · obtain rfl := shown.unique shown'
        exact absurd flawed written.not_flawed

section Mixed

def mixed : Description := ⟨none, [⟨"a", none⟩, ⟨"b", some "b"⟩], []⟩

def mixedTree : Tree := .object [
  (Piece.ofString "edges", .list []),
  (Piece.ofString "notes", .list [.object [(Piece.ofString "y", .number (.ofNat 7))],
    .string [.hex (.ofNat 13) (.ofNat 8) (.ofNat 0) (.ofNat 0)]]),
  (Piece.ofString "blocks", .list [.list [.string (Piece.ofString "a"), .null],
    .object [(Piece.ofString "content", .string [.hex (.ofNat 0) (.ofNat 0) (.ofNat 6) (.ofNat 2)]),
      (Piece.ofString "label", .string (Piece.ofString "b"))]])]

def mixedText : List Char := "\x7b\"edges\": [],
  \"notes\":[\x7b\"y\":7\x7d ,\"\\ud800\"],
  \"blocks\":[ [\"a\",null],\x7b\"content\":\"\\u0062\",\"label\":\"b\"\x7d]\x7d".toList

theorem written_mixed : Written mixedTree mixed := by
  have first : Block.Written (.list [.string (Piece.ofString "a"), .null]) ⟨"a", none⟩ :=
    .list (.intro (Piece.spell_ofString "a")) .null
  have second : Block.Written (.object
      [(Piece.ofString "content", .string [.hex (.ofNat 0) (.ofNat 0) (.ofNat 6) (.ofNat 2)]),
        (Piece.ofString "label", .string (Piece.ofString "b"))]) ⟨"b", (some (some "b")).join⟩ :=
    .object (by decide) (.put (.intro (Piece.spell_ofString "b"))) (.put (.string (by decide)))
  have blocks := IsList.intro (.cons first (.cons second .nil))
  have whole : Written mixedTree
      ⟨(none : Option (Option String)).join, mixed.blocks, (some []).getD []⟩ :=
    .object (by decide) (.kept none) (.put blocks) (.put (.intro .nil))
  exact whole

theorem parsed_mixed : parse mixedText = .ok mixed ∧
    ∃ r, parse "\x7b\"blocks\":[\x7b\"label\":\"a\",\"label\":\"b\"\x7d]\x7d".toList = .error r := by
  constructor
  · exact texts_parsed_or_rejected.1 mixed mixedTree mixedText written_mixed (by decide)
  · apply texts_parsed_or_rejected.2
    refine .inr ⟨.object [(Piece.ofString "blocks", .list [.object
      [(Piece.ofString "label", .string (Piece.ofString "a")),
        (Piece.ofString "label", .string (Piece.ofString "b"))]])], by decide, ?_⟩
    have twice : FlawedObject ["label", "content"] ["label"] (.object
        [(Piece.ofString "label", .string (Piece.ofString "a")),
          (Piece.ofString "label", .string (Piece.ofString "b"))]) :=
      .repeated List.mem_cons_self (Nat.le_refl 2)
    exact .block (.object List.mem_cons_self) List.mem_cons_self twice

end Mixed

end FlowLoops.Description
