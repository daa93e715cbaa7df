import FlowLoops.Description.Build
import FlowLoops.Loop.Detection
import FlowLoops.Proofs.Graph.Insertion
import Mathlib.Data.List.Basic

/-! The graphs that the operations of the store can make. In each of them edges lie between blocks,
and a block lists the other ends of its edges in the order in which the edges were added. -/

namespace FlowLoops
namespace Graph

/-- The graphs made by operations of the store, with handles of any graph at every call. -/
inductive Reachable : Graph → Prop
  | empty (tag : Nat) : Reachable (.empty tag)
  | addBlock {g : Graph} (content : String) (hg : Reachable g) : Reachable (g.addBlock content)
  | connect {g h : Graph} {source target : BlockId} (hg : Reachable g)
      (made : g.connect source target = .ok h) : Reachable h
  | connectChecked {g h : Graph} {source target : BlockId} (hg : Reachable g)
      (made : g.connectChecked source target = .ok h) : Reachable h
  | designate {g h : Graph} {b : BlockId} (hg : Reachable g)
      (made : g.designate b = .ok h) : Reachable h
  | copy {g : Graph} (tag : Nat) (hg : Reachable g) : Reachable (g.copy tag)

/-- The list of edges and the lists kept with the blocks tell the same. -/
structure Consistent (g : Graph) : Prop where
  source_lt : ∀ e ∈ g.edges.toList, e.source < g.blockCount
  target_lt : ∀ e ∈ g.edges.toList, e.target < g.blockCount
  outgoing : ∀ i b, g.blocks[i]? = some b →
    b.outgoing.toList = (g.edges.toList.filter (·.source = i)).map (·.target)
  incoming : ∀ i b, g.blocks[i]? = some b →
    b.incoming.toList = (g.edges.toList.filter (·.target = i)).map (·.source)
  entry : ∀ b ∈ g.entry, g.Owns b

theorem designate_eq_ok {g h : Graph} {b : BlockId} :
    g.designate b = .ok h ↔ g.Owns b ∧ h = { g with entry := some b } := by
  unfold designate
  split <;> simp_all [eq_comm]

theorem consistent_empty (tag : Nat) : (Graph.empty tag).Consistent := by
  constructor <;> simp [Graph.empty]

theorem blockCount_addBlock (g : Graph) (content : String) :
    (g.addBlock content).blockCount = g.blockCount + 1 := by
  simp [addBlock, blockCount]

theorem filter_next_eq_nil {g : Graph} {toEnd : Edge → Nat}
    (ends_lt : ∀ e ∈ g.edges.toList, toEnd e < g.blockCount) :
    g.edges.toList.filter (toEnd · = g.blockCount) = [] := by
  rw [List.filter_eq_nil_iff]
  intro e he
  simpa using Nat.ne_of_lt (ends_lt e he)

theorem Consistent.addBlock {g : Graph} (hg : g.Consistent) (content : String) :
    (g.addBlock content).Consistent := by
  refine ⟨fun e he => ?_, fun e he => ?_, fun i b hb => ?_, fun i b hb => ?_, fun b hb => ?_⟩
  · exact blockCount_addBlock g content ▸ Nat.lt_succ_of_lt (hg.source_lt e he)
  · exact blockCount_addBlock g content ▸ Nat.lt_succ_of_lt (hg.target_lt e he)
  · rw [Graph.addBlock, Array.getElem?_push] at hb
    split at hb
    next hi =>
      obtain rfl := Option.some.inj hb
      rw [hi]
      exact congrArg (List.map _) (filter_next_eq_nil hg.source_lt).symm
    · exact hg.outgoing i b hb
  · rw [Graph.addBlock, Array.getElem?_push] at hb
    split at hb
    next hi =>
      obtain rfl := Option.some.inj hb
      rw [hi]
      exact congrArg (List.map _) (filter_next_eq_nil hg.target_lt).symm
    · exact hg.incoming i b hb
  · obtain ⟨tag, inside⟩ := hg.entry b hb
    refine ⟨tag, ?_⟩
    rw [← blockCount, blockCount_addBlock]
    exact Nat.lt_succ_of_lt inside

theorem blockCount_link (g : Graph) (source target : Nat) :
    (g.link source target).blockCount = g.blockCount := by
  simp [link, blockCount]

theorem edges_link (g : Graph) (source target : Nat) :
    (g.link source target).edges.toList = g.edges.toList ++ [⟨source, target⟩] := by
  simp [link]

theorem blocks_link {g : Graph} {source target i : Nat} {b : Block}
    (hb : (g.link source target).blocks[i]? = some b) :
    ∃ old, g.blocks[i]? = some old ∧
      b.outgoing.toList = old.outgoing.toList ++ (if source = i then [target] else []) ∧
      b.incoming.toList = old.incoming.toList ++ (if target = i then [source] else []) := by
  simp only [link, Array.getElem?_modify] at hb
  cases hold : g.blocks[i]? with
  | none => simp [hold] at hb
  | some old =>
    refine ⟨old, rfl, ?_⟩
    by_cases hs : source = i <;> by_cases ht : target = i <;>
      simp only [hold, hs, ht, if_true, if_false, Option.map_some, Option.some.injEq] at hb <;>
      subst hb <;> simp [hs, ht]

theorem Consistent.link {g : Graph} (hg : g.Consistent) {source target : Nat}
    (hs : source < g.blockCount) (ht : target < g.blockCount) :
    (g.link source target).Consistent := by
  refine ⟨fun e he => ?_, fun e he => ?_, fun i b hb => ?_, fun i b hb => ?_, fun b hb => ?_⟩
  · rw [blockCount_link]
    rw [edges_link, List.mem_append, List.mem_singleton] at he
    rcases he with he | rfl
    · exact hg.source_lt e he
    · exact hs
  · rw [blockCount_link]
    rw [edges_link, List.mem_append, List.mem_singleton] at he
    rcases he with he | rfl
    · exact hg.target_lt e he
    · exact ht
  · obtain ⟨old, hold, out, -⟩ := blocks_link hb
    rw [out, hg.outgoing i old hold, edges_link]
    by_cases hi : source = i <;> simp [hi]
  · obtain ⟨old, hold, -, into⟩ := blocks_link hb
    rw [into, hg.incoming i old hold, edges_link]
    by_cases hi : target = i <;> simp [hi]
  · obtain ⟨tag, inside⟩ := hg.entry b hb
    refine ⟨tag, ?_⟩
    rw [← blockCount, blockCount_link]
    exact inside

theorem Consistent.copy {g : Graph} (hg : g.Consistent) (tag : Nat) : (g.copy tag).Consistent := by
  refine ⟨hg.source_lt, hg.target_lt, hg.outgoing, hg.incoming, fun b hb => ?_⟩
  obtain ⟨old, hold, rfl⟩ := Option.map_eq_some_iff.mp hb
  exact ⟨rfl, (hg.entry old hold).2⟩

theorem Reachable.consistent {g : Graph} (hg : g.Reachable) : g.Consistent := by
  induction hg with
  | empty tag => exact consistent_empty tag
  | addBlock content _ ih => exact ih.addBlock content
  | connect _ made ih =>
    obtain ⟨⟨hs, ht⟩, rfl⟩ := connect_eq_ok.mp made
    exact ih.link hs.2 ht.2
  | connectChecked _ made ih =>
    obtain ⟨⟨hs, ht⟩, rfl⟩ := connectChecked_eq_ok.mp made
    exact ih.link hs.2 ht.2
  | @designate g _ b _ made ih =>
    obtain ⟨hb, rfl⟩ := designate_eq_ok.mp made
    refine ⟨ih.source_lt, ih.target_lt, ih.outgoing, ih.incoming, fun c hc => ?_⟩
    obtain rfl := Option.some.inj hc
    exact hb
  | copy tag _ ih => exact ih.copy tag

theorem Owns.addBlock {g : Graph} {b : BlockId} (hb : g.Owns b) (content : String) :
    (g.addBlock content).Owns b := by
  refine ⟨hb.1, ?_⟩
  rw [← blockCount, blockCount_addBlock]
  exact Nat.lt_succ_of_lt hb.2

theorem owns_issueBlock (g : Graph) (content : String) :
    (g.issueBlock content).1.Owns (g.issueBlock content).2 := by
  refine ⟨rfl, ?_⟩
  rw [← blockCount, issueBlock, blockCount_addBlock]
  exact Nat.lt_succ_self g.blockCount

theorem Owns.link {g : Graph} {b : BlockId} (hb : g.Owns b) (source target : Nat) :
    (g.link source target).Owns b := by
  refine ⟨hb.1, ?_⟩
  rw [← blockCount, blockCount_link]
  exact hb.2

def ofLists (tag : Nat) (contents : List String) (edges : List Edge) : Graph :=
  edges.foldl (fun g e => g.link e.source e.target) (contents.foldl addBlock (.empty tag))

theorem reachable_foldl_addBlock {g : Graph} (hg : g.Reachable) (contents : List String) :
    (contents.foldl addBlock g).Reachable ∧
      (contents.foldl addBlock g).blockCount = g.blockCount + contents.length := by
  induction contents generalizing g with
  | nil => exact ⟨hg, rfl⟩
  | cons content rest ih =>
    obtain ⟨reachable, count⟩ := ih (.addBlock content hg)
    refine ⟨reachable, ?_⟩
    rw [List.foldl_cons, count, blockCount_addBlock, List.length_cons]
    omega

theorem reachable_link {g : Graph} (hg : g.Reachable) {source target : Nat}
    (hs : source < g.blockCount) (ht : target < g.blockCount) :
    (g.link source target).Reachable := by
  have owned : g.Owns (g.handle source) ∧ g.Owns (g.handle target) := ⟨⟨rfl, hs⟩, ⟨rfl, ht⟩⟩
  exact .connect hg (connect_eq_ok.mpr ⟨owned, rfl⟩)

theorem reachable_foldl_link {g : Graph} (hg : g.Reachable) {edges : List Edge}
    (within : ∀ e ∈ edges, e.source < g.blockCount ∧ e.target < g.blockCount) :
    (edges.foldl (fun g e => g.link e.source e.target) g).Reachable := by
  induction edges generalizing g with
  | nil => exact hg
  | cons e rest ih =>
    obtain ⟨hs, ht⟩ := within e List.mem_cons_self
    refine ih (reachable_link hg hs ht) fun f hf => ?_
    rw [blockCount_link]
    exact within f (List.mem_cons_of_mem _ hf)

theorem reachable_ofLists {tag : Nat} {contents : List String} {edges : List Edge}
    (within : ∀ e ∈ edges, e.source < contents.length ∧ e.target < contents.length) :
    (ofLists tag contents edges).Reachable := by
  obtain ⟨reachable, count⟩ := reachable_foldl_addBlock (.empty tag) contents
  have size : (contents.foldl addBlock (.empty tag)).blockCount = contents.length := by
    rw [count, blockCount, Graph.empty, Array.size_empty, Nat.zero_add]
  exact reachable_foldl_link reachable (size.symm ▸ within)

theorem blockCount_foldl_link (g : Graph) (edges : List Edge) :
    (edges.foldl (fun g e => g.link e.source e.target) g).blockCount = g.blockCount := by
  induction edges generalizing g with
  | nil => rfl
  | cons e rest ih => rw [List.foldl_cons, ih, blockCount_link]

theorem edges_foldl_link (g : Graph) (edges : List Edge) :
    (edges.foldl (fun g e => g.link e.source e.target) g).edges.toList =
      g.edges.toList ++ edges := by
  induction edges generalizing g with
  | nil => exact (List.append_nil _).symm
  | cons e rest ih => rw [List.foldl_cons, ih, edges_link, List.append_assoc, List.singleton_append]

theorem edges_foldl_addBlock (g : Graph) (contents : List String) :
    (contents.foldl addBlock g).edges = g.edges := by
  induction contents generalizing g with
  | nil => rfl
  | cons content rest ih => exact ih (g.addBlock content)

theorem blockCount_ofLists (tag : Nat) (contents : List String) (edges : List Edge) :
    (ofLists tag contents edges).blockCount = contents.length := by
  rw [ofLists, blockCount_foldl_link, (reachable_foldl_addBlock (.empty tag) contents).2]
  exact Nat.zero_add _

theorem edges_ofLists (tag : Nat) (contents : List String) (edges : List Edge) :
    (ofLists tag contents edges).edges.toList = edges := by
  rw [ofLists, edges_foldl_link, edges_foldl_addBlock]
  rfl

def nested : Graph :=
  ofLists 0 ["enter", "outer", "inner", "next"]
    [⟨0, 1⟩, ⟨1, 2⟩, ⟨2, 1⟩, ⟨2, 2⟩, ⟨1, 3⟩, ⟨3, 0⟩, ⟨1, 2⟩]

theorem reachable_nested : nested.Reachable := reachable_ofLists (by decide)

theorem loops_nested : nested.loops =
    .ok [⟨[⟨0, 1⟩, ⟨0, 2⟩, ⟨0, 1⟩]⟩, ⟨[⟨0, 2⟩, ⟨0, 2⟩]⟩, ⟨[⟨0, 0⟩, ⟨0, 1⟩, ⟨0, 3⟩, ⟨0, 0⟩]⟩] := by
  cbv

end Graph

theorem bind_eq_ok {ε α β : Type} {x : Except ε α} {f : α → Except ε β} {b : β} :
    x >>= f = .ok b ↔ ∃ a, x = .ok a ∧ f a = .ok b := by
  cases x <;> simp [bind, Except.bind]

theorem mapError_eq_ok {ε ε' α : Type} {x : Except ε α} {f : ε → ε'} {a : α} :
    x.mapError f = .ok a ↔ x = .ok a := by
  cases x <;> simp [Except.mapError]

namespace Description
open FlowLoops.Graph

theorem reachable_addBlocks {g h : Graph} {labels all : Labels} {blocks : List Block}
    (hg : g.Reachable) (made : addBlocks g labels blocks = .ok (h, all)) : h.Reachable := by
  induction blocks generalizing g labels with
  | nil =>
    obtain ⟨rfl, -⟩ := Prod.mk.inj (Except.ok.inj made)
    exact hg
  | cons b rest ih =>
    simp only [addBlocks, issueBlock] at made
    split at made
    · cases made
    · exact ih (.addBlock _ hg) made

theorem reachable_addEdges {g h : Graph} {labels : Labels} {edges : List Edge}
    (hg : g.Reachable) (made : addEdges labels g edges = .ok h) : h.Reachable := by
  induction edges generalizing g with
  | nil =>
    obtain rfl := Except.ok.inj made
    exact hg
  | cons e rest ih =>
    obtain ⟨source, -, made⟩ := bind_eq_ok.mp made
    obtain ⟨target, -, made⟩ := bind_eq_ok.mp made
    obtain ⟨linked, connected, made⟩ := bind_eq_ok.mp made
    exact ih (.connectChecked hg connected) made

theorem reachable_addEntry {g h : Graph} {labels : Labels} {entry : Option String}
    (hg : g.Reachable) (made : addEntry labels g entry = .ok h) : h.Reachable := by
  cases entry with
  | none =>
    obtain rfl := Except.ok.inj made
    exact hg
  | some label =>
    obtain ⟨b, -, made⟩ := bind_eq_ok.mp made
    exact .designate hg (mapError_eq_ok.mp made)

theorem reachable_build {d : Description} {tag : Nat} {g : Graph} (made : d.build tag = .ok g) :
    g.Reachable := by
  obtain ⟨⟨blocks, labels⟩, allocated, made⟩ := bind_eq_ok.mp made
  obtain ⟨linked, drawn, made⟩ := bind_eq_ok.mp made
  have hg := reachable_addBlocks (.empty tag) (mapError_eq_ok.mp allocated)
  exact reachable_addEntry (reachable_addEdges hg drawn) made

end Description
end FlowLoops
