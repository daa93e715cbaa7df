import FlowLoops.Proofs.Description.Building

/-! What keeps a description from being built. Of all that is wrong with it the first is named: a
label that an earlier block has, then an end of an edge that no block has as its label, then such an
entry. -/

namespace FlowLoops

theorem exists_first_cons {α : Type} {p q : α → Prop} {a : α} {l : List α} :
    (∃ front x rest, a :: l = front ++ x :: rest ∧ (∀ y ∈ front, p y) ∧ q x) ↔
      q a ∨ p a ∧ ∃ front x rest, l = front ++ x :: rest ∧ (∀ y ∈ front, p y) ∧ q x := by
  constructor
  · rintro ⟨front, x, rest, split, before, here⟩
    rcases List.cons_eq_append_iff.mp split with ⟨rfl, same⟩ | ⟨front, rfl, rfl⟩
    · obtain ⟨rfl, -⟩ := List.cons.inj same
      exact .inl here
    · obtain ⟨first, before⟩ := List.forall_mem_cons.mp before
      exact .inr ⟨first, front, x, rest, rfl, before, here⟩
  · rintro (here | ⟨first, front, x, rest, rfl, before, here⟩)
    · exact ⟨[], a, l, rfl, fun y hy => absurd hy List.not_mem_nil, here⟩
    · exact ⟨a :: front, x, rest, rfl, List.forall_mem_cons.mpr ⟨first, before⟩, here⟩

namespace Description

@[mk_iff]
inductive Edge.Unknown (known : List String) (e : Edge) : String → Prop
  | source (unknown : e.source ∉ known) : Unknown known e e.source
  | target (source : e.source ∈ known) (unknown : e.target ∉ known) : Unknown known e e.target

/-- What is wrong with a description, if it is the first in the order of blocks, edges and entry. -/
inductive FirstViolation (d : Description) : Violation → Prop
  | label {front rest : List Block} {b : Block} (split : d.blocks = front ++ b :: rest)
    (distinct : (front.map (·.label)).Nodup) (again : b.label ∈ front.map (·.label)) :
    FirstViolation d (.duplicatedLabel b.label)
  | edge {front rest : List Edge} {e : Edge} {l : String} (distinct : d.labels.Nodup)
    (split : d.edges = front ++ e :: rest)
    (known : ∀ f ∈ front, f.source ∈ d.labels ∧ f.target ∈ d.labels)
    (unknown : e.Unknown d.labels l) : FirstViolation d (.unknownLabel l)
  | entry {l : String} (distinct : d.labels.Nodup)
    (known : ∀ e ∈ d.edges, e.source ∈ d.labels ∧ e.target ∈ d.labels) (given : d.entry = some l)
    (unknown : l ∉ d.labels) : FirstViolation d (.unknownLabel l)

variable {g : Graph} {labels : Labels} {known : List String} {tag : Nat} {v : Violation}

theorem addBlocks_eq_error_iff (lists : labels.Lists g.tag known)
    (count : known.length = g.blockCount) (nodup : known.Nodup) (blocks : List Block) :
    addBlocks g labels blocks = .error v ↔ ∃ front b rest, blocks = front ++ b :: rest ∧
      (known ++ front.map (·.label)).Nodup ∧ b.label ∈ known ++ front.map (·.label) ∧
        v = .duplicatedLabel b.label := by
  induction blocks generalizing g labels known with
  | nil => simp [addBlocks]
  | cons b blocks ih =>
    simp only [addBlocks, Graph.issueBlock, lists.isSome_lookup]
    by_cases used : b.label ∈ known
    · rw [if_pos used]
      constructor
      · rintro ⟨⟩
        exact ⟨[], b, blocks, rfl, by simpa using nodup, by simpa using used, rfl⟩
      · rintro ⟨front, c, rest, split, distinct, -, rfl⟩
        rcases List.cons_eq_append_iff.mp split with ⟨rfl, same⟩ | ⟨front, rfl, -⟩
        · obtain ⟨rfl, -⟩ := List.cons.inj same
          rfl
        · exact absurd rfl ((List.nodup_append.mp distinct).2.2 _ used _ List.mem_cons_self)
    · rw [if_neg used]
      obtain ⟨lists', count'⟩ := lists.addBlock count used b.text
      refine (ih lists' count' (List.concat_eq_append ▸ nodup.concat used)).trans ?_
      constructor
      · rintro ⟨front, c, rest, rfl, distinct, again, rfl⟩
        rw [← List.append_cons] at distinct again
        exact ⟨b :: front, c, rest, rfl, distinct, again, rfl⟩
      · rintro ⟨front, c, rest, split, distinct, again, rfl⟩
        rcases List.cons_eq_append_iff.mp split with ⟨rfl, same⟩ | ⟨front, rfl, rfl⟩
        · obtain ⟨rfl, -⟩ := List.cons.inj same
          rw [List.map_nil, List.append_nil] at again
          exact absurd again used
        · rw [List.map_cons, List.append_cons] at distinct again
          exact ⟨front, c, rest, rfl, distinct, again, rfl⟩

theorem Edge.not_unknown {e : Edge} {l : String} (source : e.source ∈ known)
    (target : e.target ∈ known) : ¬ e.Unknown known l := by
  rintro (unknown | ⟨-, unknown⟩)
  · exact unknown source
  · exact unknown target

theorem addEdges_eq_error_iff (lists : labels.Lists tag known) (owned : labels.Owned g)
    (edges : List Edge) {failure : BuildFailure} :
    addEdges labels g edges = .error failure ↔ ∃ front e rest, edges = front ++ e :: rest ∧
      (∀ f ∈ front, f.source ∈ known ∧ f.target ∈ known) ∧
        ∃ l, e.Unknown known l ∧ failure = .violation (.unknownLabel l) := by
  induction edges generalizing g with
  | nil => simp [addEdges]
  | cons e edges ih =>
    rw [addEdges_cons owned, lists.find, lists.find, exists_first_cons]
    by_cases hs : e.source ∈ known
    · by_cases ht : e.target ∈ known
      · have fine : ¬ ∃ l, e.Unknown known l ∧ failure = .violation (.unknownLabel l) := by
          rintro ⟨l, unknown, -⟩
          exact Edge.not_unknown hs ht unknown
        rw [if_pos hs, if_pos ht, or_iff_right fine, and_iff_right ⟨hs, ht⟩]
        exact ih (owned.link (known.idxOf e.source) (known.idxOf e.target))
      · rw [if_pos hs, if_neg ht]
        simp [Edge.unknown_iff, hs, ht, Except.mapError, Except.bind, eq_comm]
    · rw [if_neg hs]
      simp [Edge.unknown_iff, hs, Except.mapError, Except.bind, eq_comm]

theorem addEntry_eq_error_iff (lists : labels.Lists tag known) (owned : labels.Owned g)
    (entry : Option String) {e : BuildFailure} :
    addEntry labels g entry = .error e ↔
      ∃ l, entry = some l ∧ l ∉ known ∧ e = .violation (.unknownLabel l) := by
  cases entry with
  | none => simp [addEntry]
  | some l =>
    rw [addEntry_some owned, lists.find]
    by_cases hl : l ∈ known
    · simp [hl, Except.mapError, Except.map]
    · simp [hl, Except.mapError, Except.map, eq_comm]

theorem exists_addBlocks_lists {d : Description} (distinct : d.labels.Nodup) (tag : Nat) :
    ∃ g all, addBlocks (.empty tag) [] d.blocks = .ok (g, all) ∧ all.Lists tag d.labels ∧
      all.Owned g := by
  have lists : Labels.Lists [] (Graph.empty tag).tag [] := .nil tag
  obtain ⟨⟨g, all⟩, made⟩ := exists_addBlocks lists rfl distinct
  obtain ⟨-, -, lists'⟩ := addBlocks_eq_ok lists rfl List.nodup_nil made
  exact ⟨g, all, made, lists', owned_addBlocks (Labels.owned_nil _) made⟩

theorem FirstViolation.build {d : Description} (first : d.FirstViolation v) (tag : Nat) :
    d.build tag = .error (.violation v) := by
  cases first with
  | label split distinct again =>
    have refused := (addBlocks_eq_error_iff (.nil (Graph.empty tag).tag) rfl List.nodup_nil _).mpr
      ⟨_, _, _, split, distinct, again, rfl⟩
    simp only [Description.build, refused]
    rfl
  | edge distinct split known unknown =>
    obtain ⟨g, all, made, lists, owned⟩ := exists_addBlocks_lists distinct tag
    have refused := (addEdges_eq_error_iff lists owned d.edges).mpr
      ⟨_, _, _, split, known, _, unknown, rfl⟩
    simp only [Description.build, made, Except.mapError, bind, Except.bind, refused]
  | entry distinct known given unknown =>
    obtain ⟨g, all, made, lists, owned⟩ := exists_addBlocks_lists distinct tag
    have linked := (addEdges_eq_ok_iff lists owned d.edges).mpr ⟨known, rfl⟩
    have refused := (addEntry_eq_error_iff lists (owned_addEdges owned linked) d.entry).mpr
      ⟨_, given, unknown, rfl⟩
    simp only [Description.build, made, Except.mapError, bind, Except.bind, linked, refused]

theorem exists_firstViolation {d : Description} {e : BuildFailure}
    (failed : d.build tag = .error e) : ∃ v, d.FirstViolation v ∧ e = .violation v := by
  -- a stage is reached only if nothing of an earlier rank is wrong
  by_cases distinct : d.labels.Nodup
  · obtain ⟨g, all, made, lists, owned⟩ := exists_addBlocks_lists distinct tag
    simp only [build, made, Except.mapError, bind, Except.bind] at failed
    cases linked : addEdges all g d.edges with
    | error failure =>
      rw [linked] at failed
      obtain rfl := Except.error.inj failed
      obtain ⟨front, f, rest, split, known, l, unknown, rfl⟩ :=
        (addEdges_eq_error_iff lists owned d.edges).mp linked
      exact ⟨_, .edge distinct split known unknown, rfl⟩
    | ok h =>
      rw [linked] at failed
      obtain ⟨known, -⟩ := (addEdges_eq_ok_iff lists owned d.edges).mp linked
      obtain ⟨l, given, unknown, rfl⟩ :=
        (addEntry_eq_error_iff lists (owned_addEdges owned linked) d.entry).mp failed
      exact ⟨_, .entry distinct known given unknown, rfl⟩
  · have lists : Labels.Lists [] (Graph.empty tag).tag [] := .nil tag
    cases made : addBlocks (.empty tag) [] d.blocks with
    | error v =>
      rw [build, made] at failed
      obtain rfl := Except.error.inj failed
      obtain ⟨front, b, rest, split, before, again, rfl⟩ :=
        (addBlocks_eq_error_iff lists rfl List.nodup_nil d.blocks).mp made
      exact ⟨_, .label split before again, rfl⟩
    | ok p => exact absurd (addBlocks_eq_ok lists rfl List.nodup_nil made).1 distinct

theorem build_eq_error_iff (d : Description) {e : BuildFailure} :
    d.build tag = .error e ↔ ∃ v, d.FirstViolation v ∧ e = .violation v := by
  constructor
  · exact exists_firstViolation
  · rintro ⟨v, first, rfl⟩
    exact first.build tag

/-- A description is built if and only if it is well labelled, and then into the graph of just its
blocks, edges and entry, in the order in which they are listed. Otherwise its first violation is
reported; no handle met on the way is foreign. -/
theorem built_or_first_violation (d : Description) (tag : Nat) :
    (d.WellLabelled ↔ ∃ g, d.build tag = .ok g) ∧
    (∀ g, d.build tag = .ok g ↔ d.WellLabelled ∧ g.Reachable ∧ g.tag = tag ∧
      g.contents = d.blocks.map Block.text ∧
      g.edges.toList = d.edges.map (Edge.within d.labels) ∧
      g.entry = d.entry.map fun l => g.handle (d.labels.idxOf l)) ∧
    (∀ e, d.build tag = .error e ↔ ∃ v, d.FirstViolation v ∧ e = .violation v ∧
      e.toFailure = .reported (.invariant v.message)) ∧
    (∀ b, d.build tag ≠ .error (.violation (.foreignBlock b))) ∧
    ∀ f, d.build tag ≠ .error (.fault f) := by
  refine ⟨⟨fun w => ⟨_, w.build tag⟩, fun ⟨g, built⟩ => ((build_eq_ok_iff d).mp built).1⟩,
    fun g => ?_, fun e => ?_, fun b failed => ?_, d.build_ne_fault tag⟩
  · constructor
    · intro built
      obtain ⟨w, rfl⟩ := (build_eq_ok_iff d).mp built
      have entry : (d.graph tag).entry =
          d.entry.map fun l => (d.graph tag).handle (d.labels.idxOf l) := by
        simp only [Graph.handle, tag_graph]
        rfl
      exact ⟨w, reachable_build built, tag_graph d tag, contents_graph d tag, edges_graph d tag,
        entry⟩
    · rintro ⟨w, hg, rfl, contents, edges, entry⟩
      have built := w.build g.tag
      have same : g = d.graph g.tag := by
        refine hg.eq_of_lists (reachable_build built) (tag_graph d g.tag).symm ?_
          (Array.toList_inj.mp ?_) entry
        · rw [contents, contents_graph]
        · rw [edges, edges_graph]
      rwa [← same] at built
  · rw [build_eq_error_iff]
    constructor
    · rintro ⟨v, first, rfl⟩
      exact ⟨v, first, rfl, rfl⟩
    · rintro ⟨v, first, rfl, -⟩
      exact ⟨v, first, rfl⟩
  · obtain ⟨v, first, same⟩ := (build_eq_error_iff d).mp failed
    cases same
    cases first

def flawed : Description :=
  ⟨some "x", [⟨"a", none⟩, ⟨"b", some "a"⟩, ⟨"b", none⟩, ⟨"a", none⟩], [⟨"b", "a"⟩, ⟨"y", "z"⟩]⟩

def dangling : Description := { flawed with blocks := flawed.blocks.take 2 }

def mended : Description := { dangling with entry := none, edges := [⟨"b", "a"⟩, ⟨"b", "a"⟩] }

theorem flawed_refused :
    flawed.build 7 = .error (.violation (.duplicatedLabel "b")) ∧
    dangling.build 7 = .error (.violation (.unknownLabel "y")) ∧
    ∃ g, mended.build 7 = .ok g ∧ g.contents = ["a", "a"] ∧ g.edges.toList = [⟨1, 0⟩, ⟨1, 0⟩] := by
  have repeated : flawed.FirstViolation (.duplicatedLabel "b") :=
    @FirstViolation.label _ (flawed.blocks.take 2) _ ⟨"b", none⟩ rfl (by decide) (by decide)
  have unknown : dangling.FirstViolation (.unknownLabel "y") :=
    @FirstViolation.edge _ [⟨"b", "a"⟩] _ ⟨"y", "z"⟩ _ (by decide) rfl (by decide)
      (.source (by decide))
  have labelled : mended.WellLabelled := ⟨by decide, by decide, by decide, by decide⟩
  obtain ⟨-, -, refused, -⟩ := built_or_first_violation flawed 7
  obtain ⟨-, -, refused', -⟩ := built_or_first_violation dangling 7
  obtain ⟨builds, exactly, -⟩ := built_or_first_violation mended 7
  obtain ⟨g, built⟩ := builds.mp labelled
  obtain ⟨-, -, -, contents, edges, -⟩ := (exactly g).mp built
  exact ⟨(refused _).mpr ⟨_, repeated, rfl, rfl⟩, (refused' _).mpr ⟨_, unknown, rfl, rfl⟩,
    g, built, contents, edges⟩

end Description
end FlowLoops
