import FlowLoops.Proofs.Graph.Reachable
import Mathlib.Data.List.Chain
import Mathlib.Logic.Relation

/-! Edges as a relation of blocks, and the walks along them. A closed walk is written with its first
block once more at the end, as a loop is. -/

namespace FlowLoops
open Relation

section Walks
variable {α : Type} {R S : α → α → Prop}

/-- A walk along a relation, with all that it passes. A walk of one entry stays where it is. -/
structure Walk (R : α → α → Prop) (a b : α) (w : List α) : Prop where
  chain : w.IsChain R
  head : w.head? = some a
  last : w.getLast? = some b

theorem isChain_concat {w : List α} {a b : α} (chain : w.IsChain R) (last : w.getLast? = some a)
    (step : R a b) : (w ++ [b]).IsChain R := by
  rw [List.isChain_append]
  refine ⟨chain, List.isChain_singleton b, ?_⟩
  rintro x hx y ⟨⟩
  obtain rfl := Option.some.inj (last.symm.trans hx)
  exact step

structure ClosedWalk (R : α → α → Prop) (w : List α) : Prop where
  chain : w.IsChain R
  closed : w.head? = w.getLast?
  two_le : 2 ≤ w.length

def Acyclic (R : α → α → Prop) : Prop := ∀ w, ¬ ClosedWalk R w

theorem Walk.reflTransGen {a b : α} {w : List α} (h : Walk R a b w) : ReflTransGen R a b := by
  have ne : w ≠ [] := by
    rintro rfl
    cases h.head
  have first : w.head ne = a := Option.some.inj ((List.head?_eq_some_head ne).symm.trans h.head)
  have final : w.getLast ne = b :=
    Option.some.inj ((List.getLast?_eq_some_getLast ne).symm.trans h.last)
  exact first ▸ final ▸ List.relationReflTransGen_of_exists_isChain w h.chain ne

theorem Walk.through {a b c : α} {w : List α} (h : Walk R a b w) (hc : c ∈ w) :
    ReflTransGen R a c ∧ ReflTransGen R c b := by
  obtain ⟨chain, head, last⟩ := h
  obtain ⟨front, rest, rfl⟩ := List.append_of_mem hc
  have start : Walk R a c (front ++ [c]) := by
    refine ⟨?_, ?_, by simp⟩
    · rw [List.append_cons front c rest] at chain
      exact chain.left_of_append
    · cases front <;> exact head
  have finish : Walk R c b (c :: rest) := by
    refine ⟨chain.right_of_append, rfl, ?_⟩
    rwa [List.getLast?_append_of_ne_nil _ (List.cons_ne_nil c rest)] at last
  exact ⟨start.reflTransGen, finish.reflTransGen⟩

theorem exists_walk {a b : α} (h : ReflTransGen R a b) : ∃ w, Walk R a b w := by
  obtain ⟨w, chain, last⟩ := List.exists_isChain_cons_of_relationReflTransGen h
  exact ⟨a :: w, chain, rfl, by rw [List.getLast?_eq_some_getLast (by simp), last]⟩

theorem ClosedWalk.transGen {w : List α} (h : ClosedWalk R w) : ∃ a, TransGen R a a := by
  obtain ⟨chain, closed, two_le⟩ := h
  match w, two_le with
  | a :: b :: rest, _ =>
    obtain ⟨step, tail⟩ := List.isChain_cons_cons.mp chain
    have back : Walk R b a (b :: rest) := ⟨tail, rfl, by simpa using closed.symm⟩
    exact ⟨a, TransGen.head' step back.reflTransGen⟩

theorem acyclic_iff_transGen : Acyclic R ↔ ∀ a, ¬ TransGen R a a := by
  constructor
  · intro h a round
    obtain ⟨b, step, back⟩ := TransGen.head'_iff.mp round
    obtain ⟨w, walk⟩ := exists_walk back
    refine h (a :: w) ⟨walk.chain.cons ?_, ?_, ?_⟩
    · intro c hc
      rw [walk.head] at hc
      exact Option.some.inj hc ▸ step
    · cases w with
      | nil => cases walk.head
      | cons c rest => simpa using walk.last.symm
    · cases w with
      | nil => cases walk.head
      | cons c rest => simp
  · intro h w closed
    obtain ⟨a, round⟩ := closed.transGen
    exact h a round

theorem Acyclic.mono (h : Acyclic S) (sub : ∀ a b, R a b → S a b) : Acyclic R := by
  intro w closed
  exact h w ⟨closed.chain.imp sub, closed.closed, closed.two_le⟩

theorem acyclic_of_acc (h : ∀ a b, R a b → Acc (fun y x => R x y) a) : Acyclic R := by
  have never {a : α} (acc : Acc (TransGen fun y x => R x y) a) :
      ¬ TransGen (fun y x => R x y) a a := by
    induction acc with
    | intro a _ ih => exact fun round => ih a round round
  rw [acyclic_iff_transGen]
  intro a round
  obtain ⟨b, step, -⟩ := TransGen.head'_iff.mp round
  exact never (h a b step).transGen (transGen_swap.mpr round)

theorem acyclic_of_lt (f : α → Nat) (rises : ∀ a b, R a b → f a < f b) : Acyclic R := by
  rw [acyclic_iff_transGen]
  have above {a b : α} (h : TransGen R a b) : f a < f b := by
    induction h with
    | single step => exact rises _ _ step
    | tail _ step ih => exact ih.trans (rises _ _ step)
  exact fun a round => Nat.lt_irrefl _ (above round)

theorem ClosedWalk.exists_step {w : List α} (h : ClosedWalk R w) (hS : Acyclic S) :
    ∃ a b, [a, b] <:+: w ∧ R a b ∧ ¬ S a b := by
  have broken : ¬ w.IsChain S := fun chain => hS w ⟨chain, h.closed, h.two_le⟩
  rw [List.isChain_iff_forall_rel_of_append_cons_cons] at broken
  push Not at broken
  obtain ⟨a, b, before, after, rfl, lacking⟩ := broken
  refine ⟨a, b, ⟨before, after, by simp⟩, ?_, lacking⟩
  exact List.isChain_iff_forall_rel_of_append_cons_cons.mp h.chain rfl

end Walks

namespace Graph

/-- The successors of a block, one for each edge; a foreign block has none. -/
def targets (g : Graph) (b : BlockId) : List BlockId := (g.successors b).toOption.getD []

def Adjacent (g : Graph) (u v : BlockId) : Prop := ∃ next, g.successors u = .ok next ∧ v ∈ next

def Reaches (g : Graph) : BlockId → BlockId → Prop := ReflTransGen g.Adjacent

theorem Owns.eq_handle {g : Graph} {b : BlockId} (h : g.Owns b) : b = g.handle b.index := by
  obtain ⟨tag, index⟩ := b
  obtain rfl : tag = g.tag := h.1
  rfl

theorem Owns.eq_of_index {g : Graph} {u v : BlockId} (hu : g.Owns u) (hv : g.Owns v)
    (same : u.index = v.index) : u = v := by
  rw [hu.eq_handle, hv.eq_handle, same]

theorem owns_handle {g : Graph} {i : Nat} : g.Owns (g.handle i) ↔ i < g.blockCount := by
  simp [Owns, handle, blockCount]

theorem mem_handles {g : Graph} {b : BlockId} : b ∈ g.handles ↔ g.Owns b := by
  rw [handles, List.mem_map]
  constructor
  · rintro ⟨i, hi, rfl⟩
    exact owns_handle.mpr (List.mem_range.mp hi)
  · intro h
    exact ⟨b.index, List.mem_range.mpr h.2, h.eq_handle.symm⟩

theorem successors_eq_ok {g : Graph} {b : BlockId} {next : List BlockId} :
    g.successors b = .ok next ↔
      ∃ block, g.blocks[b.index]? = some block ∧ g.Owns b ∧
        next = block.outgoing.toList.map g.handle := by
  unfold successors block
  by_cases h : g.Owns b
  · have inside : b.index < g.blocks.size := h.2
    simp [h, Except.map, inside, eq_comm]
  · simp [h, Except.map]

theorem predecessors_eq_ok {g : Graph} {b : BlockId} {next : List BlockId} :
    g.predecessors b = .ok next ↔
      ∃ block, g.blocks[b.index]? = some block ∧ g.Owns b ∧
        next = block.incoming.toList.map g.handle := by
  unfold predecessors block
  by_cases h : g.Owns b
  · have inside : b.index < g.blocks.size := h.2
    simp [h, Except.map, inside, eq_comm]
  · simp [h, Except.map]

theorem successors_eq_targets {g : Graph} {b : BlockId} (h : g.Owns b) :
    g.successors b = .ok (g.targets b) := by
  have made := successors_eq_ok.mpr ⟨_, Array.getElem?_eq_getElem h.2, h, rfl⟩
  rw [targets, made]
  rfl

theorem targets_of_not_owns {g : Graph} {b : BlockId} (h : ¬ g.Owns b) : g.targets b = [] := by
  unfold targets successors block
  simp [h, Except.map, Except.toOption]

theorem adjacent_iff {g : Graph} {u v : BlockId} : g.Adjacent u v ↔ v ∈ g.targets u := by
  by_cases h : g.Owns u
  · simp [Adjacent, successors_eq_targets h]
  · have refused : ∀ next, g.successors u ≠ .ok next := by
      intro next made
      obtain ⟨-, -, owned, -⟩ := successors_eq_ok.mp made
      exact h owned
    simp [Adjacent, refused, targets_of_not_owns h]

theorem Adjacent.owns_left {g : Graph} {u v : BlockId} (h : g.Adjacent u v) : g.Owns u := by
  obtain ⟨next, made, -⟩ := h
  obtain ⟨-, -, owned, -⟩ := successors_eq_ok.mp made
  exact owned

theorem Reachable.adjacent_iff {g : Graph} (hg : g.Reachable) {u v : BlockId} :
    g.Adjacent u v ↔ u.graph = g.tag ∧ v.graph = g.tag ∧ ⟨u.index, v.index⟩ ∈ g.edges.toList := by
  have consistent := hg.consistent
  constructor
  · rintro ⟨next, made, hv⟩
    obtain ⟨block, hblock, owned, rfl⟩ := successors_eq_ok.mp made
    rw [consistent.outgoing _ _ hblock] at hv
    obtain ⟨j, hj, rfl⟩ := List.mem_map.mp hv
    obtain ⟨e, he, rfl⟩ := List.mem_map.mp hj
    obtain ⟨he, source⟩ := List.mem_filter.mp he
    have at_source : e.source = u.index := by simpa using source
    exact ⟨owned.1, rfl, at_source ▸ he⟩
  · rintro ⟨hu, hv, he⟩
    have owned : g.Owns u := ⟨hu, consistent.source_lt _ he⟩
    refine ⟨_, successors_eq_ok.mpr ⟨_, Array.getElem?_eq_getElem owned.2, owned, rfl⟩, ?_⟩
    rw [consistent.outgoing _ _ (Array.getElem?_eq_getElem owned.2)]
    refine List.mem_map.mpr ⟨v.index, List.mem_map.mpr ⟨_, List.mem_filter.mpr ⟨he, ?_⟩, rfl⟩, ?_⟩
    · simp
    · rw [handle, ← hv]

theorem Reachable.targets_eq {g : Graph} (hg : g.Reachable) {u : BlockId} (hu : g.Owns u) :
    g.targets u =
      ((g.edges.toList.filter (·.source = u.index)).map (·.target)).map g.handle := by
  have listed := Array.getElem?_eq_getElem hu.2
  have made := successors_eq_ok.mpr ⟨_, listed, hu, rfl⟩
  rw [hg.consistent.outgoing _ _ listed] at made
  rw [targets, made]
  rfl

theorem Adjacent.owns_right {g : Graph} (hg : g.Reachable) {u v : BlockId} (h : g.Adjacent u v) :
    g.Owns v := by
  obtain ⟨-, tag, he⟩ := hg.adjacent_iff.mp h
  exact ⟨tag, hg.consistent.target_lt _ he⟩

theorem owns_of_mem_successors {g : Graph} (hg : g.Reachable) {b c : BlockId}
    {next : List BlockId} (made : g.successors b = .ok next) (hc : c ∈ next) : g.Owns c :=
  Adjacent.owns_right hg ⟨next, made, hc⟩

theorem owns_of_mem_predecessors {g : Graph} (hg : g.Reachable) {b c : BlockId}
    {next : List BlockId} (made : g.predecessors b = .ok next) (hc : c ∈ next) : g.Owns c := by
  obtain ⟨block, listed, -, rfl⟩ := predecessors_eq_ok.mp made
  rw [hg.consistent.incoming _ _ listed] at hc
  obtain ⟨i, hi, rfl⟩ := List.mem_map.mp hc
  obtain ⟨e, he, rfl⟩ := List.mem_map.mp hi
  exact owns_handle.mpr (hg.consistent.source_lt e (List.mem_of_mem_filter he))

end Graph
end FlowLoops
