import FlowLoops.Proofs.Description.Reordering
import FlowLoops.Proofs.Description.Violation
import FlowLoops.Proofs.Loop.Topology

/-! Labels are only names. Under other names that keep different labels apart, a description is built
into the same graph, or is refused with the same violation under its new name. -/

namespace FlowLoops

def Violation.rename (f : String → String) : Violation → Violation
  | foreignBlock b => foreignBlock b
  | duplicatedLabel l => duplicatedLabel (f l)
  | unknownLabel l => unknownLabel (f l)

def BuildFailure.rename (f : String → String) : BuildFailure → BuildFailure
  | violation v => violation (v.rename f)
  | fault x => fault x

namespace Description

def Block.rename (f : String → String) (b : Block) : Block := { b with label := f b.label }

def Edge.rename (f : String → String) (e : Edge) : Edge := ⟨f e.source, f e.target⟩

def rename (f : String → String) (d : Description) : Description :=
  ⟨d.entry.map f, d.blocks.map (Block.rename f), d.edges.map (Edge.rename f)⟩

def mentioned (d : Description) : List String :=
  d.labels ++ (d.edges.flatMap (fun e => [e.source, e.target]) ++ d.entry.toList)

variable {d : Description} {f : String → String} {v : Violation} {l : String}

section Mentioned

theorem mentioned_of_mem_labels (hl : l ∈ d.labels) : l ∈ d.mentioned :=
  List.mem_append_left _ hl

theorem mentioned_of_mem_edges {e : Edge} (he : e ∈ d.edges) :
    e.source ∈ d.mentioned ∧ e.target ∈ d.mentioned := by
  have ends {l : String} (hl : l ∈ [e.source, e.target]) : l ∈ d.mentioned :=
    List.mem_append_right _ (List.mem_append_left _ (List.mem_flatMap.mpr ⟨e, he, hl⟩))
  exact ⟨ends List.mem_cons_self, ends (List.mem_cons_of_mem _ List.mem_cons_self)⟩

theorem mentioned_of_entry (given : d.entry = some l) : l ∈ d.mentioned :=
  List.mem_append_right _ (List.mem_append_right _ (Option.mem_toList.mpr given))

theorem Edge.Unknown.mentioned {known : List String} {e : Edge} (he : e ∈ d.edges)
    (unknown : e.Unknown known l) : l ∈ d.mentioned := by
  obtain ⟨source, target⟩ := mentioned_of_mem_edges he
  cases unknown with
  | source _ => exact source
  | target _ _ => exact target

theorem FirstViolation.exists_mentioned (first : d.FirstViolation v) :
    ∃ l ∈ d.mentioned, v = .duplicatedLabel l ∨ v = .unknownLabel l := by
  cases first with
  | @label front rest b split distinct again =>
    have hb : b ∈ d.blocks := split ▸ List.mem_append_right front List.mem_cons_self
    exact ⟨b.label, mentioned_of_mem_labels (List.mem_map_of_mem hb), .inl rfl⟩
  | @edge front rest e l distinct split known unknown =>
    have he : e ∈ d.edges := split ▸ List.mem_append_right front List.mem_cons_self
    exact ⟨l, unknown.mentioned he, .inr rfl⟩
  | entry distinct known given unknown => exact ⟨_, mentioned_of_entry given, .inr rfl⟩

end Mentioned

section Renamed

theorem entry_graph (d : Description) (tag : Nat) :
    (d.graph tag).entry = d.entry.map fun l => ⟨tag, d.labels.idxOf l⟩ := rfl

theorem labels_rename (f : String → String) (d : Description) :
    (d.rename f).labels = d.labels.map f := by
  rw [labels, labels, rename, List.map_map, List.map_map]
  rfl

variable (inj : Set.InjOn f {l | l ∈ d.mentioned})
include inj

theorem mem_labels_rename (hl : l ∈ d.mentioned) : f l ∈ (d.rename f).labels ↔ l ∈ d.labels := by
  rw [labels_rename]
  constructor
  · intro image
    obtain ⟨k, hk, same⟩ := List.mem_map.mp image
    exact inj (mentioned_of_mem_labels hk) hl same ▸ hk
  · exact List.mem_map_of_mem

theorem nodup_map_labels {known : List String} (sub : ∀ l ∈ known, l ∈ d.labels)
    (distinct : known.Nodup) : (known.map f).Nodup :=
  distinct.map_on fun _ hk _ hl same =>
    inj (mentioned_of_mem_labels (sub _ hk)) (mentioned_of_mem_labels (sub _ hl)) same

theorem nodup_labels_rename (distinct : d.labels.Nodup) : (d.rename f).labels.Nodup := by
  rw [labels_rename]
  exact nodup_map_labels inj (fun _ hl => hl) distinct

theorem idxOf_labels_rename (hl : l ∈ d.mentioned) :
    (d.rename f).labels.idxOf (f l) = d.labels.idxOf l := by
  rw [labels_rename]
  exact idxOf_map_of_injOn fun k hk same => inj (mentioned_of_mem_labels hk) hl same

theorem known_rename {e : Edge} (he : e ∈ d.edges)
    (known : e.source ∈ d.labels ∧ e.target ∈ d.labels) :
    (e.rename f).source ∈ (d.rename f).labels ∧ (e.rename f).target ∈ (d.rename f).labels := by
  obtain ⟨source, target⟩ := mentioned_of_mem_edges he
  exact ⟨(mem_labels_rename inj source).mpr known.1, (mem_labels_rename inj target).mpr known.2⟩

theorem Edge.Unknown.rename {e : Edge} (he : e ∈ d.edges) (unknown : e.Unknown d.labels l) :
    (e.rename f).Unknown (d.rename f).labels (f l) := by
  obtain ⟨source, target⟩ := mentioned_of_mem_edges he
  cases unknown with
  | source unknown => exact .source (mt (mem_labels_rename inj source).mp unknown)
  | target known unknown =>
    exact .target ((mem_labels_rename inj source).mpr known)
      (mt (mem_labels_rename inj target).mp unknown)

theorem WellLabelled.rename (w : d.WellLabelled) : (d.rename f).WellLabelled := by
  have ends : ∀ e ∈ (d.rename f).edges,
      e.source ∈ (d.rename f).labels ∧ e.target ∈ (d.rename f).labels := by
    refine List.forall_mem_map.mpr fun e he => ?_
    exact known_rename inj he ⟨w.source_mem e he, w.target_mem e he⟩
  refine ⟨nodup_labels_rename inj w.nodup, fun e he => (ends e he).1, fun e he => (ends e he).2,
    fun k given => ?_⟩
  obtain ⟨l, entry, rfl⟩ := Option.map_eq_some_iff.mp given
  exact (mem_labels_rename inj (mentioned_of_entry entry)).mpr (w.entry_mem l entry)

theorem FirstViolation.rename (first : d.FirstViolation v) :
    (d.rename f).FirstViolation (v.rename f) := by
  cases first with
  | @label front rest b split distinct again =>
    have blocks : (d.rename f).blocks =
        front.map (Block.rename f) ++ b.rename f :: rest.map (Block.rename f) := by
      rw [Description.rename, split, List.map_append, List.map_cons]
    have labels : (front.map (Block.rename f)).map (·.label) = (front.map (·.label)).map f := by
      rw [List.map_map, List.map_map]
      rfl
    have sub : ∀ l ∈ front.map (·.label), l ∈ d.labels := by
      intro l hl
      rw [Description.labels, split, List.map_append]
      exact List.mem_append_left _ hl
    refine @label _ _ _ (b.rename f) blocks ?_ ?_
    · rw [labels]
      exact nodup_map_labels inj sub distinct
    · rw [labels]
      exact List.mem_map_of_mem again
  | @edge front rest e l distinct split known unknown =>
    have edges : (d.rename f).edges =
        front.map (Edge.rename f) ++ e.rename f :: rest.map (Edge.rename f) := by
      rw [Description.rename, split, List.map_append, List.map_cons]
    have he : e ∈ d.edges := split ▸ List.mem_append_right front List.mem_cons_self
    refine .edge (nodup_labels_rename inj distinct) edges ?_ (unknown.rename inj he)
    refine List.forall_mem_map.mpr fun k hk => ?_
    have listed : k ∈ d.edges := split ▸ List.mem_append_left _ hk
    exact known_rename inj listed (known k hk)
  | @entry l distinct known given unknown =>
    have entry : (d.rename f).entry = some (f l) := by
      rw [Description.rename, given, Option.map_some]
    refine .entry (nodup_labels_rename inj distinct) ?_ entry ?_
    · exact List.forall_mem_map.mpr fun k hk => known_rename inj hk (known k hk)
    · exact mt (mem_labels_rename inj (mentioned_of_entry given)).mp unknown

theorem edges_rename (tag tag' : Nat) :
    ((d.rename f).graph tag').edges = (d.graph tag).edges := by
  apply Array.toList_inj.mp
  rw [edges_graph, edges_graph, rename, List.map_map]
  apply List.map_congr_left
  intro e he
  obtain ⟨source, target⟩ := mentioned_of_mem_edges he
  exact congrArg₂ FlowLoops.Edge.mk (idxOf_labels_rename inj source)
    (idxOf_labels_rename inj target)

theorem entry_rename (tag tag' : Nat) : ((d.rename f).graph tag').entry =
    (d.graph tag).entry.map fun b => ((d.rename f).graph tag').handle b.index := by
  have given : (d.rename f).entry = d.entry.map f := rfl
  rw [entry_graph, entry_graph, given, Option.map_map, Option.map_map]
  refine Option.map_congr fun l hl => ?_
  have place := idxOf_labels_rename inj (mentioned_of_entry hl)
  exact (congrArg (BlockId.mk tag') place).trans
    (congrArg (BlockId.mk · (d.labels.idxOf l)) (tag_graph (d.rename f) tag').symm)

end Renamed

theorem contents_rename (f : String → String) (d : Description) (tag : Nat) :
    ((d.rename f).graph tag).contents = d.blocks.map fun b => b.content.getD (f b.label) := by
  rw [contents_graph, rename, List.map_map]
  rfl

theorem length_labels_rename (f : String → String) (d : Description) :
    (d.rename f).labels.length = d.labels.length := by
  rw [labels_rename, List.length_map]

theorem sameTopology_rename (inj : Set.InjOn f {l | l ∈ d.mentioned}) (w : d.WellLabelled)
    (tag tag' : Nat) : Graph.SameTopology (d.graph tag) ((d.rename f).graph tag') := by
  have reachable := reachable_build (w.build tag)
  have reachable' := reachable_build ((w.rename inj).build tag')
  refine (Graph.sameTopology_iff reachable reachable').mpr ⟨?_, fun i => ?_⟩
  · rw [blockCount_graph, blockCount_graph, length_labels_rename]
  · rw [edges_rename inj tag tag']

theorem text_rename (f : String → String) (l : String)
    (named : v = .duplicatedLabel l ∨ v = .unknownLabel l) :
    ∃ said, v.toError.text = said ++ l ∧ (v.rename f).toError.text = said ++ f l := by
  rcases named with rfl | rfl
  · exact ⟨"[natloop::invariant] " ++ "duplicated block label: ", (String.append_assoc ..).symm,
      (String.append_assoc ..).symm⟩
  · exact ⟨"[natloop::invariant] " ++ "unknown block label: ", (String.append_assoc ..).symm,
      (String.append_assoc ..).symm⟩

/-- Under other labels, as long as they keep apart those that occur, the same graph is built, but
that blocks without a content of their own hold their new labels; so the loops are the same. Or the
same violation is met, and its text ends in the new label. -/
theorem labels_are_names (d : Description) (f : String → String)
    (inj : Set.InjOn f {l | l ∈ d.mentioned}) (tag tag' : Nat) :
    (∀ g, d.build tag = .ok g → ∃ h, (d.rename f).build tag' = .ok h ∧
      h.contents = d.blocks.map (fun b => b.content.getD (f b.label)) ∧ h.edges = g.edges ∧
      h.entry = g.entry.map (fun b => h.handle b.index) ∧
      Graph.SameTopology g h ∧ SameLoops g h) ∧
    ∀ e, d.build tag = .error e → (d.rename f).build tag' = .error (e.rename f) ∧
      ∃ l ∈ d.mentioned, ∃ said,
        e.toFailure.text = said ++ l ∧ (e.rename f).toFailure.text = said ++ f l := by
  refine ⟨fun g built => ?_, fun e failed => ?_⟩
  · obtain ⟨w, rfl⟩ := (build_eq_ok_iff d).mp built
    have renamed := (w.rename inj).build tag'
    have topology := sameTopology_rename inj w tag tag'
    exact ⟨_, renamed, contents_rename f d tag', edges_rename inj tag tag',
      entry_rename inj tag tag', topology,
      topology.sameLoops (reachable_build built) (reachable_build renamed)⟩
  · obtain ⟨v, first, rfl⟩ := (build_eq_error_iff d).mp failed
    obtain ⟨l, mentioned, named⟩ := first.exists_mentioned
    exact ⟨(first.rename inj).build tag', l, mentioned, text_rename f l named⟩

def turned (l : String) : String :=
  if l = "a" then "b" else if l = "b" then "c" else if l = "c" then "a" else l ++ "!"

theorem turned_labels_built :
    (Set.InjOn turned {l | l ∈ tangled.mentioned} ∧ Set.InjOn turned {l | l ∈ dangling.mentioned}) ∧
    (∃ g h, tangled.build 0 = .ok g ∧ (tangled.rename turned).build 1 = .ok h ∧
      h.contents = ["x", "x", "a"] ∧ h.edges = g.edges ∧ h.entry = some ⟨1, 0⟩ ∧ SameLoops g h) ∧
    (dangling.rename turned).build 1 = .error (.violation (.unknownLabel "y!")) := by
  have apart : ∀ a ∈ tangled.mentioned, ∀ b ∈ tangled.mentioned, turned a = turned b → a = b := by
    decide
  have apart' : ∀ a ∈ dangling.mentioned, ∀ b ∈ dangling.mentioned,
      turned a = turned b → a = b := by
    decide
  have inj : Set.InjOn turned {l | l ∈ tangled.mentioned} := fun a ha b hb => apart a ha b hb
  have inj' : Set.InjOn turned {l | l ∈ dangling.mentioned} := fun a ha b hb => apart' a ha b hb
  have built := wellLabelled_tangled.build 0
  have unknown : dangling.FirstViolation (.unknownLabel "y") :=
    @FirstViolation.edge _ [⟨"b", "a"⟩] _ ⟨"y", "z"⟩ _ (by decide) rfl (by decide)
      (.source (by decide))
  obtain ⟨h, renamed, contents, edges, entry, -, loops⟩ :=
    (labels_are_names tangled turned inj 0 1).1 _ built
  obtain ⟨refused, -⟩ := (labels_are_names dangling turned inj' 0 1).2 _ (unknown.build 0)
  obtain ⟨-, rfl⟩ := (build_eq_ok_iff _).mp renamed
  exact ⟨⟨inj, inj'⟩, ⟨_, _, built, renamed, contents, edges, entry, loops⟩, refused⟩

end Description
end FlowLoops
