import FlowLoops.Description.Reader
import FlowLoops.Proofs.Json.Records
import FlowLoops.Proofs.Json.Unambiguous

/-! The texts of descriptions. Each record is an object with its fields in any order and others among
them, or a list of its fields in order; these texts are parsed, and no others. -/

namespace FlowLoops.Description
open Json

inductive Block.Written : Tree → Block → Prop
  | object {ms : List Member} {label : String} {content : Option (Option String)}
    (keyed : Keyed ms) (hl : Given IsString none (valuesOf ms "label") (some label))
    (hc : Given IsOptionalString none (valuesOf ms "content") content) :
    Written (.object ms) ⟨label, content.join⟩
  | list {v w : Tree} {label : String} {content : Option String} (hl : IsString v label)
    (hc : IsOptionalString w content) : Written (.list [v, w]) ⟨label, content⟩

inductive Edge.Written : Tree → Edge → Prop
  | object {ms : List Member} {source target : String} (keyed : Keyed ms)
    (hs : Given IsString none (valuesOf ms "from") (some source))
    (ht : Given IsString none (valuesOf ms "to") (some target)) :
    Written (.object ms) ⟨source, target⟩
  | list {v w : Tree} {source target : String} (hs : IsString v source) (ht : IsString w target) :
    Written (.list [v, w]) ⟨source, target⟩

/-- The trees of a description. Edges may be left out if there are none. -/
inductive Written : Tree → Description → Prop
  | object {ms : List Member} {entry : Option (Option String)} {blocks : List Block}
    {edges : Option (List Edge)} (keyed : Keyed ms)
    (he : Given IsOptionalString none (valuesOf ms "entry") entry)
    (hb : Given (IsList Block.Written) none (valuesOf ms "blocks") (some blocks))
    (hs : Given (IsList Edge.Written) none (valuesOf ms "edges") edges) :
    Written (.object ms) ⟨entry.join, blocks, edges.getD []⟩
  | short {v w : Tree} {entry : Option String} {blocks : List Block} (he : IsOptionalString v entry)
    (hb : IsList Block.Written w blocks) : Written (.list [v, w]) ⟨entry, blocks, []⟩
  | list {v w x : Tree} {entry : Option String} {blocks : List Block} {edges : List Edge}
    (he : IsOptionalString v entry) (hb : IsList Block.Written w blocks)
    (hs : IsList Edge.Written x edges) : Written (.list [v, w, x]) ⟨entry, blocks, edges⟩

section Blocks

def blockSlots : List (Slot BlockDraft) :=
  [⟨"label", String, IsString, BlockDraft.label, fun s d => { d with label := some s }⟩,
    ⟨"content", Option String, IsOptionalString, BlockDraft.content,
      fun s d => { d with content := some s }⟩]

theorem hasSlots_block : blockShape.HasSlots blockSlots where
  fields := .cons ⟨rfl, fun _ => rfl, Reader.reads_text.map _⟩
    (.cons ⟨rfl, fun _ => rfl, Reader.reads_optionalText.map _⟩ .nil)
  required := Nat.le_refl 2
  nodup := by decide
  get_blank := by simp [blockSlots, blockShape]
  get_put := by simp [blockSlots]
  get_other := by simp [blockSlots]
  ext := by
    rintro ⟨label, content⟩ ⟨label', content'⟩ h
    simpa [blockSlots] using h

theorem holds_block_iff {v : Tree} {b : Block} :
    blockShape.Holds blockSlots v b ↔ Block.Written v b := by
  constructor
  · intro h
    cases h with
    | @object ms d _ keyed given finished =>
      obtain ⟨hl, hc, -⟩ := List.forall_mem_cons.mp given |>.imp_right List.forall_mem_cons.mp
      obtain ⟨_ | label, content⟩ := d
      · cases finished
      · obtain rfl := Except.ok.inj finished
        exact .object keyed hl hc
    | list enough lists finished =>
      obtain ⟨v, w, label, content, rfl, hl, hc, rfl⟩ := lists.pair enough
      obtain rfl := Except.ok.inj finished
      exact .list hl hc
  · intro h
    cases h with
    | @object ms label content keyed hl hc =>
      have given : ∀ p ∈ blockSlots,
          Given p.holds none (valuesOf ms p.name) (p.get ⟨some label, content⟩) :=
        List.forall_mem_cons.mpr ⟨hl, List.forall_mem_singleton.mpr hc⟩
      exact .object keyed given rfl
    | list hl hc => exact .list (Nat.le_refl 2) (.item hl (.item hc (.stop [] _))) rfl

theorem reads_block : blockShape.reader.Reads Block.Written := by
  have same : blockShape.Holds blockSlots = Block.Written := by
    funext v b
    exact propext holds_block_iff
  exact same ▸ hasSlots_block.reads

end Blocks

section Edges

def edgeSlots : List (Slot EdgeDraft) :=
  [⟨"from", String, IsString, EdgeDraft.source, fun s d => { d with source := some s }⟩,
    ⟨"to", String, IsString, EdgeDraft.target, fun s d => { d with target := some s }⟩]

theorem hasSlots_edge : edgeShape.HasSlots edgeSlots where
  fields := .cons ⟨rfl, fun _ => rfl, Reader.reads_text.map _⟩
    (.cons ⟨rfl, fun _ => rfl, Reader.reads_text.map _⟩ .nil)
  required := Nat.le_refl 2
  nodup := by decide
  get_blank := by simp [edgeSlots, edgeShape]
  get_put := by simp [edgeSlots]
  get_other := by simp [edgeSlots]
  ext := by
    rintro ⟨source, target⟩ ⟨source', target'⟩ h
    simpa [edgeSlots] using h

theorem holds_edge_iff {v : Tree} {e : Edge} :
    edgeShape.Holds edgeSlots v e ↔ Edge.Written v e := by
  constructor
  · intro h
    cases h with
    | @object ms d _ keyed given finished =>
      obtain ⟨hs, ht, -⟩ := List.forall_mem_cons.mp given |>.imp_right List.forall_mem_cons.mp
      obtain ⟨_ | source, _ | target⟩ := d
      · cases finished
      · cases finished
      · cases finished
      · obtain rfl := Except.ok.inj finished
        exact .object keyed hs ht
    | list enough lists finished =>
      obtain ⟨v, w, source, target, rfl, hs, ht, rfl⟩ := lists.pair enough
      obtain rfl := Except.ok.inj finished
      exact .list hs ht
  · intro h
    cases h with
    | @object ms source target keyed hs ht =>
      have given : ∀ p ∈ edgeSlots,
          Given p.holds none (valuesOf ms p.name) (p.get ⟨some source, some target⟩) :=
        List.forall_mem_cons.mpr ⟨hs, List.forall_mem_singleton.mpr ht⟩
      exact .object keyed given rfl
    | list hs ht => exact .list (Nat.le_refl 2) (.item hs (.item ht (.stop [] _))) rfl

theorem reads_edge : edgeShape.reader.Reads Edge.Written := by
  have same : edgeShape.Holds edgeSlots = Edge.Written := by
    funext v e
    exact propext holds_edge_iff
  exact same ▸ hasSlots_edge.reads

end Edges

section Whole

def slots : List (Slot Draft) :=
  [⟨"entry", Option String, IsOptionalString, Draft.entry, fun s d => { d with entry := some s }⟩,
    ⟨"blocks", List Block, IsList Block.Written, Draft.blocks,
      fun l d => { d with blocks := some l }⟩,
    ⟨"edges", List Edge, IsList Edge.Written, Draft.edges, fun l d => { d with edges := some l }⟩]

theorem hasSlots : shape.HasSlots slots where
  fields := .cons ⟨rfl, fun _ => rfl, Reader.reads_optionalText.map _⟩
    (.cons ⟨rfl, fun _ => rfl, reads_block.list.map _⟩
      (.cons ⟨rfl, fun _ => rfl, reads_edge.list.map _⟩ .nil))
  required := Nat.le_succ 2
  nodup := by decide
  get_blank := by simp [slots, shape]
  get_put := by simp [slots]
  get_other := by simp [slots]
  ext := by
    rintro ⟨entry, blocks, edges⟩ ⟨entry', blocks', edges'⟩ h
    simpa [slots] using h

theorem holds_iff {v : Tree} {d : Description} : shape.Holds slots v d ↔ Written v d := by
  constructor
  · intro h
    cases h with
    | @object ms draft _ keyed given finished =>
      obtain ⟨he, given⟩ := List.forall_mem_cons.mp given
      obtain ⟨hb, hs, -⟩ := List.forall_mem_cons.mp given |>.imp_right List.forall_mem_cons.mp
      obtain ⟨entry, _ | blocks, edges⟩ := draft
      · cases finished
      · obtain rfl := Except.ok.inj finished
        exact .object keyed he hb hs
    | list enough lists finished =>
      cases lists with
      | stop => exact absurd enough (by simp [shape])
      | item he rest =>
        cases rest with
        | stop => exact absurd enough (by simp [shape])
        | item hb rest =>
          cases rest with
          | stop =>
            obtain rfl := Except.ok.inj finished
            exact .short he hb
          | item hs rest =>
            cases rest
            obtain rfl := Except.ok.inj finished
            exact .list he hb hs
  · intro h
    cases h with
    | @object ms entry blocks edges keyed he hb hs =>
      have given : ∀ p ∈ slots,
          Given p.holds none (valuesOf ms p.name) (p.get ⟨entry, some blocks, edges⟩) :=
        List.forall_mem_cons.mpr ⟨he, List.forall_mem_cons.mpr
          ⟨hb, List.forall_mem_singleton.mpr hs⟩⟩
      exact .object keyed given rfl
    | short he hb => exact .list (Nat.le_refl 2) (.item he (.item hb (.stop _ _))) rfl
    | list he hb hs =>
      exact .list (Nat.le_succ 2) (.item he (.item hb (.item hs (.stop [] _)))) rfl

theorem reads : shape.reader.Reads Written := by
  have same : shape.Holds slots = Written := by
    funext v d
    exact propext holds_iff
  exact same ▸ hasSlots.reads

theorem parse_eq_ok_iff {text : List Char} {d : Description} :
    parse text = .ok d ↔ ∃ v, Written v d ∧ IsText v text := reads.whole_eq_ok_iff

end Whole

end FlowLoops.Description
