import FlowLoops.Proofs.Graph.Copy

/-! Graphs grow: operations of the store add blocks and edges to them, and handles that were issued
before go on to name the blocks that they named. -/

namespace FlowLoops
namespace Graph

def contents (g : Graph) : List String := g.blocks.toList.map (·.content)

inductive Grows (g : Graph) : Graph → Prop
  | refl : Grows g g
  | addBlock {h : Graph} (content : String) (grown : Grows g h) : Grows g (h.addBlock content)
  | link {h : Graph} {source target : BlockId} (grown : Grows g h) (hs : h.Owns source)
    (ht : h.Owns target) : Grows g (h.link source.index target.index)
  | designate {h : Graph} {b : BlockId} (grown : Grows g h) (hb : h.Owns b) :
    Grows g { h with entry := some b }

variable {g h k : Graph} {b : BlockId}

theorem contents_addBlock (g : Graph) (content : String) :
    (g.addBlock content).contents = g.contents ++ [content] := by
  simp [contents, addBlock]

theorem contents_link (g : Graph) (source target : Nat) :
    (g.link source target).contents = g.contents := by
  refine List.ext_getElem? fun i => ?_
  simp only [contents, link, List.getElem?_map, Array.getElem?_toList, Array.getElem?_modify]
  split <;> split <;> simp [Function.comp_def]

theorem contents_ofLists (tag : Nat) (contents : List String) (edges : List Edge) :
    (ofLists tag contents edges).contents = contents := by
  have linked (g : Graph) : (edges.foldl (fun g e => g.link e.source e.target) g).contents =
      g.contents := by
    induction edges generalizing g with
    | nil => rfl
    | cons e rest ih => rw [List.foldl_cons, ih, contents_link]
  have added (g : Graph) : (contents.foldl addBlock g).contents = g.contents ++ contents := by
    induction contents generalizing g with
    | nil => exact (List.append_nil _).symm
    | cons content rest ih =>
      rw [List.foldl_cons, ih, contents_addBlock, List.append_assoc, List.singleton_append]
  rw [ofLists, linked, added]
  rfl

theorem length_contents (g : Graph) : g.contents.length = g.blockCount := by
  rw [contents, List.length_map, Array.length_toList, blockCount]

theorem content_eq_ok_iff {s : String} :
    g.content b = .ok s ↔ g.Owns b ∧ g.contents[b.index]? = some s := by
  rw [content_eq_ok, contents, List.getElem?_map, Array.getElem?_toList, Option.map_eq_some_iff]

theorem Reachable.eq_of_lists (hg : g.Reachable) (hh : h.Reachable) (tag : g.tag = h.tag)
    (contents : g.contents = h.contents) (edges : g.edges = h.edges) (entry : g.entry = h.entry) :
    g = h := by
  have blocks : g.blocks = h.blocks := by
    refine Array.ext_getElem? fun i => ?_
    have held : g.contents[i]? = h.contents[i]? := by rw [contents]
    simp only [Graph.contents, List.getElem?_map, Array.getElem?_toList] at held
    cases hb : g.blocks[i]? with
    | none =>
      rw [hb, Option.map_none, eq_comm, Option.map_eq_none_iff] at held
      exact held.symm
    | some b =>
      rw [hb, Option.map_some, eq_comm, Option.map_eq_some_iff] at held
      obtain ⟨c, hc, content⟩ := held
      have outgoing : b.outgoing.toList = c.outgoing.toList := by
        rw [hg.consistent.outgoing i b hb, hh.consistent.outgoing i c hc, edges]
      have incoming : b.incoming.toList = c.incoming.toList := by
        rw [hg.consistent.incoming i b hb, hh.consistent.incoming i c hc, edges]
      have same : b = c := by
        cases b
        cases c
        rw [Block.mk.injEq]
        exact ⟨content.symm, Array.toList_inj.mp outgoing, Array.toList_inj.mp incoming⟩
      rw [hc, same]
  cases g
  cases h
  rw [Graph.mk.injEq]
  exact ⟨tag, blocks, edges, entry⟩

theorem idxOf_handles (hb : g.Owns b) : g.handles.idxOf b = b.index := by
  have nodup : g.handles.Nodup :=
    List.nodup_range.map fun i j same => congrArg BlockId.index same
  have inside : b.index < g.handles.length := by
    rw [handles, List.length_map, List.length_range]
    exact hb.2
  have listed : g.handles[b.index] = b := by
    simp only [handles, List.getElem_map, List.getElem_range]
    exact hb.eq_handle.symm
  have found := nodup.idxOf_getElem b.index inside
  rwa [listed] at found

namespace Grows

theorem trans (first : Grows g h) (second : Grows h k) : Grows g k := by
  induction second with
  | refl => exact first
  | addBlock content _ ih => exact .addBlock content ih
  | link _ hs ht ih => exact .link ih hs ht
  | designate _ hb ih => exact .designate ih hb

theorem reachable (grows : Grows g h) (hg : g.Reachable) : h.Reachable := by
  induction grows with
  | refl => exact hg
  | addBlock content _ ih => exact .addBlock content ih
  | link _ hs ht ih => exact .connect ih (connect_eq_ok.mpr ⟨⟨hs, ht⟩, rfl⟩)
  | designate _ hb ih => exact .designate ih (designate_eq_ok.mpr ⟨hb, rfl⟩)

theorem tag_eq (grows : Grows g h) : h.tag = g.tag := by
  induction grows with
  | refl => rfl
  | addBlock _ _ ih => exact ih
  | link _ _ _ ih => exact ih
  | designate _ _ ih => exact ih

theorem contents_prefix (grows : Grows g h) : g.contents <+: h.contents := by
  induction grows with
  | refl => exact List.prefix_rfl
  | @addBlock h content _ ih =>
    rw [contents_addBlock]
    exact ih.trans (List.prefix_append _ _)
  | link _ _ _ ih =>
    rw [contents_link]
    exact ih
  | designate _ _ ih => exact ih

theorem blockCount_le (grows : Grows g h) : g.blockCount ≤ h.blockCount := by
  rw [← length_contents, ← length_contents]
  exact grows.contents_prefix.length_le

theorem owns (grows : Grows g h) (hb : g.Owns b) : h.Owns b :=
  ⟨hb.1.trans grows.tag_eq.symm, Nat.lt_of_lt_of_le hb.2 grows.blockCount_le⟩

theorem content_eq (grows : Grows g h) (hb : g.Owns b) : h.content b = g.content b := by
  obtain ⟨s, content⟩ := exists_content hb
  obtain ⟨later, grown⟩ := grows.contents_prefix
  have inside : b.index < g.contents.length := by
    rw [length_contents]
    exact hb.2
  have listed : h.contents[b.index]? = some s := by
    rw [← grown, List.getElem?_append_left inside]
    exact (content_eq_ok_iff.mp content).2
  rw [content]
  exact content_eq_ok_iff.mpr ⟨grows.owns hb, listed⟩

theorem handles_prefix (grows : g.Grows h) : g.handles <+: h.handles := by
  have ranges : List.range g.blockCount <+: List.range h.blockCount := by
    rw [List.prefix_iff_eq_take, List.length_range, List.take_range,
      Nat.min_eq_left grows.blockCount_le]
  have same : h.handle = g.handle := by
    funext i
    rw [handle, handle, grows.tag_eq]
  rw [handles, handles, same]
  exact ranges.map g.handle

end Grows
end Graph
end FlowLoops
