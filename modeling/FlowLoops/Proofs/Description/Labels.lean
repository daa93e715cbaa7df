import FlowLoops.Proofs.Graph.Copy

/-! Labels stand for blocks of the graph that is built. So no handle met while building is foreign,
and a description is built alike under every tag. -/

namespace FlowLoops
namespace Description
open FlowLoops.Graph
variable {g : Graph} {labels : Labels} {label : String} {b : BlockId}

def Labels.Owned (g : Graph) (labels : Labels) : Prop := ∀ p ∈ labels, g.Owns p.2

theorem Labels.owned_nil (g : Graph) : Labels.Owned g [] := fun _ hp => absurd hp List.not_mem_nil

def Labels.copy (labels : Labels) (tag : Nat) : Labels :=
  labels.map fun p => (p.1, ⟨tag, p.2.index⟩)

theorem Labels.lookup_copy (labels : Labels) (tag : Nat) (label : String) :
    (labels.copy tag).lookup label = (labels.lookup label).map fun b => ⟨tag, b.index⟩ := by
  induction labels with
  | nil => rfl
  | cons p rest ih =>
    obtain ⟨first, b⟩ := p
    rw [Labels.copy, List.map_cons, List.lookup_cons, List.lookup_cons]
    cases label == first with
    | true => rfl
    | false => exact ih

theorem Labels.find_copy (labels : Labels) (tag : Nat) (label : String) :
    (labels.copy tag).find label = (labels.find label).map fun b => ⟨tag, b.index⟩ := by
  rw [Labels.find, Labels.find, labels.lookup_copy]
  cases labels.lookup label <;> rfl

theorem Labels.Owned.find (owned : labels.Owned g) (found : labels.find label = .ok b) :
    g.Owns b := by
  rw [Labels.find] at found
  split at found
  · cases found
  next c listed =>
    obtain rfl := Except.ok.inj found
    obtain ⟨before, after, rfl, -⟩ := List.lookup_eq_some_iff.mp listed
    exact owned (label, c) (List.mem_append_right _ List.mem_cons_self)

theorem Labels.Owned.addBlock (owned : labels.Owned g) (label content : String) :
    Labels.Owned (g.addBlock content) ((label, g.handle g.blockCount) :: labels) :=
  List.forall_mem_cons.mpr
    ⟨owns_issueBlock g content, fun p hp => (owned p hp).addBlock content⟩

theorem Labels.Owned.link (owned : labels.Owned g) (source target : Nat) :
    labels.Owned (g.link source target) := fun p hp => (owned p hp).link source target

theorem Labels.Owned.copy (owned : labels.Owned g) (tag : Nat) :
    (labels.copy tag).Owned (g.copy tag) := by
  intro p hp
  obtain ⟨q, hq, rfl⟩ := List.mem_map.mp hp
  exact owns_copy (owned q hq) tag

theorem owned_addBlocks {h : Graph} {all : Labels} {blocks : List Block}
    (owned : labels.Owned g) (made : addBlocks g labels blocks = .ok (h, all)) : all.Owned h := by
  induction blocks generalizing g labels with
  | nil =>
    obtain ⟨rfl, rfl⟩ := Prod.mk.inj (Except.ok.inj made)
    exact owned
  | cons b rest ih =>
    simp only [addBlocks, issueBlock] at made
    split at made
    · cases made
    · exact ih (owned.addBlock _ _) made

theorem addBlocks_copy (g : Graph) (labels : Labels) (blocks : List Block) (tag : Nat) :
    addBlocks (g.copy tag) (labels.copy tag) blocks =
      (addBlocks g labels blocks).map fun p => (p.1.copy tag, p.2.copy tag) := by
  induction blocks generalizing g labels with
  | nil => rfl
  | cons b rest ih =>
    simp only [addBlocks, issueBlock, labels.lookup_copy, Option.isSome_map]
    split
    · rfl
    · exact ih (g.addBlock (b.content.getD b.label)) ((b.label, g.handle g.blockCount) :: labels)

/-- Edges between labels are added between blocks of the graph, and none is refused as foreign. -/
theorem addEdges_cons (owned : labels.Owned g) (e : Edge) (rest : List Edge) :
    addEdges labels g (e :: rest) = ((labels.find e.source).mapError .violation).bind fun source =>
      ((labels.find e.target).mapError .violation).bind fun target =>
        addEdges labels (g.link source.index target.index) rest := by
  simp only [addEdges, bind, Except.bind]
  cases hs : labels.find e.source with
  | error v => rfl
  | ok source =>
    cases ht : labels.find e.target with
    | error v => rfl
    | ok target =>
      have linked := connectChecked_eq_ok.mpr ⟨⟨owned.find hs, owned.find ht⟩, rfl⟩
      simp only [Except.mapError, linked]

theorem addEdges_copy (owned : labels.Owned g) (edges : List Edge) (tag : Nat) :
    addEdges (labels.copy tag) (g.copy tag) edges =
      (addEdges labels g edges).map (·.copy tag) := by
  induction edges generalizing g with
  | nil => rfl
  | cons e rest ih =>
    rw [addEdges_cons owned, addEdges_cons (owned.copy tag), labels.find_copy, labels.find_copy]
    cases labels.find e.source with
    | error v => rfl
    | ok source =>
      cases labels.find e.target with
      | error v => rfl
      | ok target => exact ih (owned.link source.index target.index)

theorem owned_addEdges {h : Graph} {edges : List Edge} (owned : labels.Owned g)
    (made : addEdges labels g edges = .ok h) : labels.Owned h := by
  induction edges generalizing g with
  | nil =>
    obtain rfl := Except.ok.inj made
    exact owned
  | cons e rest ih =>
    rw [addEdges_cons owned] at made
    obtain ⟨source, -, made⟩ := bind_eq_ok.mp made
    obtain ⟨target, -, made⟩ := bind_eq_ok.mp made
    exact ih (owned.link source.index target.index) made

theorem addEdges_ne_fault (owned : labels.Owned g) (edges : List Edge) (f : Fault) :
    addEdges labels g edges ≠ .error (.fault f) := by
  induction edges generalizing g with
  | nil => simp [addEdges]
  | cons e rest ih =>
    rw [addEdges_cons owned]
    cases labels.find e.source with
    | error v => simp [Except.mapError, Except.bind]
    | ok source =>
      cases labels.find e.target with
      | error v => simp [Except.mapError, Except.bind]
      | ok target => exact ih (owned.link source.index target.index)

theorem addEntry_some (owned : labels.Owned g) (label : String) :
    addEntry labels g (some label) =
      ((labels.find label).mapError .violation).map fun b => { g with entry := some b } := by
  simp only [addEntry, bind, Except.bind]
  cases hl : labels.find label with
  | error v => rfl
  | ok b =>
    have designated := designate_eq_ok.mpr ⟨owned.find hl, rfl⟩
    simp only [Except.mapError, designated, Except.map]

theorem addEntry_copy (owned : labels.Owned g) (entry : Option String) (tag : Nat) :
    addEntry (labels.copy tag) (g.copy tag) entry =
      (addEntry labels g entry).map (·.copy tag) := by
  cases entry with
  | none => rfl
  | some label =>
    rw [addEntry_some owned, addEntry_some (owned.copy tag), labels.find_copy]
    cases labels.find label <;> rfl

theorem build_copy (d : Description) (first tag : Nat) :
    d.build tag = (d.build first).map (·.copy tag) := by
  have blocks : addBlocks (.empty tag) [] d.blocks =
      (addBlocks (.empty first) [] d.blocks).map fun p => (p.1.copy tag, p.2.copy tag) :=
    addBlocks_copy (.empty first) [] d.blocks tag
  simp only [build, bind, Except.bind, blocks]
  cases hb : addBlocks (.empty first) [] d.blocks with
  | error v => rfl
  | ok p =>
    have owned : p.2.Owned p.1 := owned_addBlocks (Labels.owned_nil _) hb
    simp only [Except.map, Except.mapError, addEdges_copy owned]
    cases he : addEdges p.2 p.1 d.edges with
    | error v => rfl
    | ok g => exact addEntry_copy (owned_addEdges owned he) d.entry tag

theorem build_ne_fault (d : Description) (tag : Nat) (f : Fault) :
    d.build tag ≠ .error (.fault f) := by
  simp only [build, bind, Except.bind]
  cases hb : addBlocks (.empty tag) [] d.blocks with
  | error v => simp [Except.mapError]
  | ok p =>
    have owned : p.2.Owned p.1 := owned_addBlocks (Labels.owned_nil _) hb
    simp only [Except.mapError]
    cases he : addEdges p.2 p.1 d.edges with
    | error e =>
      have other := addEdges_ne_fault owned d.edges f
      rwa [he] at other
    | ok g =>
      cases d.entry with
      | none => simp [addEntry]
      | some label =>
        simp only [addEntry_some (owned_addEdges owned he)]
        cases p.2.find label <;> simp [Except.mapError, Except.map]

end Description
end FlowLoops
