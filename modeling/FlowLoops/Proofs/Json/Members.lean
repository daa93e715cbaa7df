import FlowLoops.Proofs.Json.Printing

/-! The members of an object by name. A key may be spelled in many ways; the values under a name are
those of all members whose keys spell it. -/

namespace FlowLoops.Json
variable {β : Type}

theorem Piece.Spell.unique {ps : List Piece} {s s' : String} (h : Spell ps s) (h' : Spell ps s') :
    s = s' := by
  unfold Spell at h h'
  exact String.toList_injective (Option.some.inj (h.symm.trans h'))

def valuesOf (ms : List Member) (name : String) : List Tree :=
  (ms.filter fun m => Piece.Spell m.1 name).map Prod.snd

def Keyed (ms : List Member) : Prop := ∀ m ∈ ms, ∃ name, Piece.Spell m.1 name

theorem keyed_iff {ms : List Member} : Keyed ms ↔ ∀ m ∈ ms, (Piece.chars? m.1).isSome := by
  have each : ∀ ps : List Piece, (∃ name, Piece.Spell ps name) ↔ (Piece.chars? ps).isSome := by
    intro ps
    rw [Option.isSome_iff_exists]
    constructor
    · exact fun ⟨name, spelled⟩ => ⟨name.toList, spelled⟩
    · exact fun ⟨chars, h⟩ => ⟨String.ofList chars, h.trans (by rw [String.toList_ofList])⟩
  exact forall₂_congr fun m _ => each m.1

instance (ms : List Member) : Decidable (Keyed ms) := decidable_of_iff _ keyed_iff.symm

section Values
variable {key : List Piece} {name : String}

theorem valuesOf_cons_of_spell (spelled : Piece.Spell key name) (v : Tree) (ms : List Member) :
    valuesOf ((key, v) :: ms) name = v :: valuesOf ms name := by
  unfold valuesOf
  rw [List.filter_cons, if_pos (decide_eq_true spelled), List.map_cons]

theorem valuesOf_cons_of_ne {other : String} (spelled : Piece.Spell key other) (ne : other ≠ name)
    (v : Tree) (ms : List Member) : valuesOf ((key, v) :: ms) name = valuesOf ms name := by
  have fails : ¬ decide (Piece.Spell key name) = true := fun h =>
    ne (spelled.unique (of_decide_eq_true h))
  unfold valuesOf
  rw [List.filter_cons, if_neg fails]

end Values

/-- What becomes of a place when values are given for it: one value fills an empty place. -/
inductive Given (holds : Tree → β → Prop) : Option β → List Tree → Option β → Prop
  | kept (o : Option β) : Given holds o [] o
  | put {v : Tree} {b : β} (h : holds v b) : Given holds none [v] (some b)

section Given
variable {holds : Tree → β → Prop} {vs : List Tree}

theorem Given.length_le {o o' : Option β} (given : Given holds o vs o') : vs.length ≤ 1 := by
  cases given with
  | kept => exact Nat.zero_le 1
  | put => exact Nat.le_refl 1

theorem Given.ne_nil {b : β} (given : Given holds none vs (some b)) : vs ≠ [] := by
  cases given with
  | put => exact List.cons_ne_nil _ _

theorem Given.of_mem {o : Option β} {v : Tree} (given : Given holds none vs o) (hv : v ∈ vs) :
    ∃ b, o = some b ∧ holds v b := by
  cases given with
  | kept => cases hv
  | put h =>
    obtain rfl := List.mem_singleton.mp hv
    exact ⟨_, rfl, h⟩

end Given

section Printed

theorem keyed_memberTrees (members : List (String × Value)) : Keyed (Value.memberTrees members) := by
  rw [Value.memberTrees_eq_map]
  intro m hm
  obtain ⟨n, -, rfl⟩ := List.mem_map.mp hm
  exact ⟨n.1, Piece.spell_ofString n.1⟩

theorem valuesOf_memberTrees (members : List (String × Value)) (name : String) :
    valuesOf (Value.memberTrees members) name =
      (members.filter fun m => m.1 = name).map fun m => m.2.tree := by
  induction members with
  | nil => rfl
  | cons m members ih =>
    rw [Value.memberTrees]
    have spelled := Piece.spell_ofString m.1
    by_cases same : m.1 = name
    · rw [List.filter_cons, if_pos (decide_eq_true same), List.map_cons, ← ih]
      exact valuesOf_cons_of_spell (same ▸ spelled) _ _
    · rw [List.filter_cons, if_neg (by rwa [decide_eq_true_iff]), ← ih]
      exact valuesOf_cons_of_ne spelled same _ _

theorem given_memberTrees {holds : Tree → β → Prop} {members : List (String × Value)}
    {name : String} {v : Value} {b : β} (alone : members.filter (fun m => m.1 = name) = [(name, v)])
    (h : holds v.tree b) : Given holds none (valuesOf (Value.memberTrees members) name) (some b) := by
  rw [valuesOf_memberTrees, alone]
  exact .put h

end Printed

end FlowLoops.Json
