import FlowLoops.Proofs.Description.Labels
import FlowLoops.Proofs.Graph.Growth

/-! What is built. A description can be built if and only if its labels differ from each other and
no other label occurs in it; then blocks and edges stand as they are listed, a block where its label
stands. -/

namespace FlowLoops

theorem Graph.ofLists_keeps {α : Type} {f : Graph → α}
    (added : ∀ g content, f (addBlock g content) = f g)
    (linked : ∀ g source target, f (link g source target) = f g) (tag : Nat)
    (contents : List String) (edges : List Edge) :
    f (ofLists tag contents edges) = f (.empty tag) := by
  have with_edges (g : Graph) : f (edges.foldl (fun g e => g.link e.source e.target) g) = f g := by
    induction edges generalizing g with
    | nil => rfl
    | cons e rest ih => rw [List.foldl_cons, ih, linked]
  have with_blocks (g : Graph) : f (contents.foldl addBlock g) = f g := by
    induction contents generalizing g with
    | nil => rfl
    | cons content rest ih => rw [List.foldl_cons, ih, added]
  rw [ofLists, with_edges, with_blocks]

theorem Graph.entry_ofLists (tag : Nat) (contents : List String) (edges : List Edge) :
    (ofLists tag contents edges).entry = none :=
  ofLists_keeps (fun _ _ => rfl) (fun _ _ _ => rfl) tag contents edges

theorem Graph.tag_ofLists (tag : Nat) (contents : List String) (edges : List Edge) :
    (ofLists tag contents edges).tag = tag :=
  ofLists_keeps (fun _ _ => rfl) (fun _ _ _ => rfl) tag contents edges

namespace Description
def Block.text (b : Block) : String := b.content.getD b.label

def labels (d : Description) : List String := d.blocks.map (·.label)

def Edge.within (known : List String) (e : Edge) : FlowLoops.Edge :=
  ⟨known.idxOf e.source, known.idxOf e.target⟩

structure WellLabelled (d : Description) : Prop where
  nodup : d.labels.Nodup
  source_mem : ∀ e ∈ d.edges, e.source ∈ d.labels
  target_mem : ∀ e ∈ d.edges, e.target ∈ d.labels
  entry_mem : ∀ l ∈ d.entry, l ∈ d.labels

def graph (d : Description) (tag : Nat) : Graph :=
  { Graph.ofLists tag (d.blocks.map Block.text) (d.edges.map (Edge.within d.labels)) with
    entry := d.entry.map fun l => ⟨tag, d.labels.idxOf l⟩ }

theorem contents_graph (d : Description) (tag : Nat) :
    (d.graph tag).contents = d.blocks.map Block.text :=
  Graph.contents_ofLists ..

theorem edges_graph (d : Description) (tag : Nat) :
    (d.graph tag).edges.toList = d.edges.map (Edge.within d.labels) :=
  Graph.edges_ofLists ..

theorem tag_graph (d : Description) (tag : Nat) : (d.graph tag).tag = tag :=
  Graph.tag_ofLists ..

theorem blockCount_graph (d : Description) (tag : Nat) :
    (d.graph tag).blockCount = d.labels.length := by
  rw [← Graph.length_contents, contents_graph, List.length_map, labels, List.length_map]

variable {g h : Graph} {labels all : Labels} {known : List String} {tag : Nat}

/-- Each of the labels known so far stands for the block at its place. -/
def Labels.Lists (labels : Labels) (tag : Nat) (known : List String) : Prop :=
  ∀ l, labels.lookup l = if l ∈ known then some ⟨tag, known.idxOf l⟩ else none

namespace Labels.Lists

theorem nil (tag : Nat) : Labels.Lists [] tag [] := fun l => by simp

theorem isSome_lookup (lists : labels.Lists tag known) (l : String) :
    (labels.lookup l).isSome = true ↔ l ∈ known := by
  rw [lists l]
  split <;> simp_all

theorem concat (lists : labels.Lists tag known) {l : String} (new : l ∉ known) :
    Labels.Lists ((l, ⟨tag, known.length⟩) :: labels) tag (known ++ [l]) := by
  intro k
  rw [List.lookup_cons]
  by_cases same : k = l
  · subst same
    simp [List.idxOf_append_of_notMem new]
  · have other : (k == l) = false := beq_false_of_ne same
    rw [other, lists k]
    by_cases hk : k ∈ known
    · simp [hk, List.idxOf_append_of_mem hk]
    · simp [hk, same]

theorem find (lists : labels.Lists tag known) (l : String) :
    labels.find l =
      if l ∈ known then .ok ⟨tag, known.idxOf l⟩ else .error (.unknownLabel l) := by
  rw [Labels.find, lists l]
  by_cases hl : l ∈ known <;> simp [hl]

theorem addBlock (lists : labels.Lists g.tag known) (count : known.length = g.blockCount)
    {l : String} (new : l ∉ known) (content : String) :
    Labels.Lists ((l, g.handle g.blockCount) :: labels) (g.addBlock content).tag (known ++ [l]) ∧
      (known ++ [l]).length = (g.addBlock content).blockCount := by
  constructor
  · rw [Graph.handle, ← count]
    exact lists.concat new
  · rw [List.length_append, Graph.blockCount_addBlock, count]
    rfl

end Labels.Lists

theorem addBlocks_eq_ok (lists : labels.Lists g.tag known) (count : known.length = g.blockCount)
    (nodup : known.Nodup) {blocks : List Block} (made : addBlocks g labels blocks = .ok (h, all)) :
    (known ++ blocks.map (·.label)).Nodup ∧ h = (blocks.map Block.text).foldl Graph.addBlock g ∧
      all.Lists g.tag (known ++ blocks.map (·.label)) := by
  induction blocks generalizing g labels known with
  | nil =>
    obtain ⟨rfl, rfl⟩ := Prod.mk.inj (Except.ok.inj made)
    rw [List.map_nil, List.append_nil]
    exact ⟨nodup, rfl, lists⟩
  | cons b rest ih =>
    simp only [addBlocks, Graph.issueBlock, lists.isSome_lookup] at made
    split at made
    · cases made
    next new =>
      rw [List.map_cons, List.append_cons]
      obtain ⟨lists', count'⟩ := lists.addBlock count new b.text
      exact ih lists' count' (List.concat_eq_append ▸ nodup.concat new) made

theorem exists_addBlocks (lists : labels.Lists g.tag known)
    (count : known.length = g.blockCount) {blocks : List Block}
    (nodup : (known ++ blocks.map (·.label)).Nodup) :
    ∃ made, addBlocks g labels blocks = .ok made := by
  induction blocks generalizing g labels known with
  | nil => exact ⟨_, rfl⟩
  | cons b rest ih =>
    rw [List.map_cons, List.append_cons] at nodup
    have new : b.label ∉ known := by
      have before := (List.nodup_append.mp nodup).1
      intro hb
      exact (List.nodup_append.mp before).2.2 _ hb _ List.mem_cons_self rfl
    simp only [addBlocks, Graph.issueBlock, lists.isSome_lookup, if_neg new]
    obtain ⟨lists', count'⟩ := lists.addBlock count new b.text
    exact ih lists' count' nodup

theorem addEdges_eq_ok_iff (lists : labels.Lists tag known) (owned : labels.Owned g)
    (edges : List Edge) :
    addEdges labels g edges = .ok h ↔
      (∀ e ∈ edges, e.source ∈ known ∧ e.target ∈ known) ∧
        h = (edges.map (Edge.within known)).foldl (fun g e => g.link e.source e.target) g := by
  induction edges generalizing g with
  | nil => simp [addEdges, eq_comm]
  | cons e rest ih =>
    rw [addEdges_cons owned, lists.find, lists.find, List.forall_mem_cons]
    by_cases hs : e.source ∈ known
    · by_cases ht : e.target ∈ known
      · rw [if_pos hs, if_pos ht]
        simp only [hs, ht, true_and, and_self]
        exact ih (owned.link (known.idxOf e.source) (known.idxOf e.target))
      · rw [if_pos hs, if_neg ht]
        simp [ht, Except.mapError, Except.bind]
    · rw [if_neg hs]
      simp [hs, Except.mapError, Except.bind]

theorem addEntry_eq_ok_iff (lists : labels.Lists tag known) (owned : labels.Owned g)
    (blank : g.entry = none) (entry : Option String) :
    addEntry labels g entry = .ok h ↔ (∀ l ∈ entry, l ∈ known) ∧
      h = { g with entry := entry.map fun l => ⟨tag, known.idxOf l⟩ } := by
  cases entry with
  | none =>
    have same : { g with entry := none } = g := by rw [← blank]
    simp [addEntry, same, eq_comm]
  | some l =>
    rw [addEntry_some owned, lists.find]
    by_cases hl : l ∈ known
    · simp [hl, Except.mapError, Except.map, eq_comm]
    · simp [hl, Except.mapError, Except.map]

theorem build_eq_ok_iff (d : Description) :
    d.build tag = .ok g ↔ d.WellLabelled ∧ g = d.graph tag := by
  have lists : Labels.Lists [] (Graph.empty tag).tag [] := .nil tag
  simp only [build, bind, Except.bind]
  cases made : addBlocks (.empty tag) [] d.blocks with
  | error v =>
    -- all labels differ if no label is met twice
    refine iff_of_false (by simp [Except.mapError]) ?_
    rintro ⟨labelled, -⟩
    obtain ⟨all, succeeded⟩ := exists_addBlocks lists rfl labelled.nodup
    cases made.symm.trans succeeded
  | ok p =>
    obtain ⟨h, all⟩ := p
    obtain ⟨nodup, rfl, lists⟩ := addBlocks_eq_ok lists rfl List.nodup_nil made
    have owned := owned_addBlocks (Labels.owned_nil _) made
    have edges {k : Graph} := addEdges_eq_ok_iff (h := k) lists owned d.edges
    simp only [Except.mapError]
    cases linked : addEdges all ((d.blocks.map Block.text).foldl Graph.addBlock (.empty tag))
        d.edges with
    | error v =>
      refine iff_of_false (by simp) ?_
      rintro ⟨labelled, -⟩
      have succeeded := edges.mpr
        ⟨fun e he => ⟨labelled.source_mem e he, labelled.target_mem e he⟩, rfl⟩
      cases linked.symm.trans succeeded
    | ok k =>
      obtain ⟨ends, rfl⟩ := edges.mp linked
      have entry := addEntry_eq_ok_iff (h := g) lists (owned_addEdges owned linked)
        (Graph.entry_ofLists tag _ _) d.entry
      refine entry.trans (and_congr_left fun _ => ⟨fun known => ?_, (·.entry_mem)⟩)
      exact ⟨nodup, fun e he => (ends e he).1, fun e he => (ends e he).2, known⟩

theorem WellLabelled.build {d : Description} (w : d.WellLabelled) (tag : Nat) :
    d.build tag = .ok (d.graph tag) :=
  (build_eq_ok_iff d).mpr ⟨w, rfl⟩

end Description
end FlowLoops
