import FlowLoops.Proofs.Graph.Pairing
import FlowLoops.Proofs.Loop.Parallel
import Mathlib.Algebra.GroupWithZero.Nat

/-! Each edge is seen from both of its ends: where it is listed among the successors of its source, it
is listed among the predecessors of its target, and nowhere else. -/

namespace FlowLoops

section Counting
variable {α : Type} (key : α → Nat) (l : List α)

theorem countP_lt_succ (n : Nat) :
    l.countP (key · < n + 1) = l.countP (key · < n) + l.countP (key · = n) := by
  induction l with
  | nil => rfl
  | cons a rest ih =>
    simp only [List.countP_cons, decide_eq_true_eq, ih]
    by_cases same : key a = n
    · simp [same]
      omega
    · have lt_iff : key a < n + 1 ↔ key a < n := by omega
      simp only [same, lt_iff, if_false]
      omega

theorem sum_countP_range (n : Nat) :
    ((List.range n).map fun i => l.countP (key · = i)).sum = l.countP (key · < n) := by
  induction n with
  | zero => simp
  | succ n ih =>
    rw [List.range_succ, List.map_append, List.sum_append, ih, countP_lt_succ]
    simp

end Counting

theorem mapM_eq_ok_map {ε α β : Type} {f : α → Except ε β} {h : α → β} {l : List α}
    (each : ∀ a ∈ l, f a = .ok (h a)) : l.mapM f = .ok (l.map h) := by
  induction l with
  | nil => rfl
  | cons a rest ih =>
    obtain ⟨first, others⟩ := List.forall_mem_cons.mp each
    rw [List.mapM_cons, first, ih others]
    rfl

namespace Graph
variable {g : Graph} {b u v : BlockId}

def sources (g : Graph) (b : BlockId) : List BlockId := (g.predecessors b).toOption.getD []

theorem predecessors_eq_sources (hb : g.Owns b) : g.predecessors b = .ok (g.sources b) := by
  have made := predecessors_eq_ok.mpr ⟨_, Array.getElem?_eq_getElem hb.2, hb, rfl⟩
  rw [sources, made]
  rfl

theorem Reachable.sources_eq (hg : g.Reachable) (hb : g.Owns b) :
    g.sources b = ((g.edges.toList.filter (·.target = b.index)).map (·.source)).map g.handle := by
  have listed := Array.getElem?_eq_getElem hb.2
  have made := predecessors_eq_ok.mpr ⟨_, listed, hb, rfl⟩
  rw [hg.consistent.incoming _ _ listed] at made
  rw [sources, made]
  rfl

theorem Reachable.count_sources (hg : g.Reachable) (hu : g.Owns u) (hv : g.Owns v) :
    (g.sources v).count u = g.edges.toList.count ⟨u.index, v.index⟩ := by
  have source_iff (j : Nat) : g.handle j = u ↔ j = u.index := by
    rw [hu.eq_handle]
    exact ⟨congrArg BlockId.index, congrArg g.handle⟩
  rw [hg.sources_eq hv, List.count, List.count, List.countP_map, List.countP_map,
    List.countP_filter]
  refine List.countP_congr fun ⟨source, target⟩ _ => ?_
  simp [source_iff]

theorem Reachable.length_targets (hg : g.Reachable) (hb : g.Owns b) :
    (g.targets b).length = g.outDegree b.index := by
  rw [hg.targets_eq hb, List.length_map, List.length_map, outDegree, List.countP_eq_length_filter]

theorem Reachable.length_sources (hg : g.Reachable) (hb : g.Owns b) :
    (g.sources b).length = g.inDegree b.index := by
  rw [hg.sources_eq hb, List.length_map, List.length_map, inDegree, List.countP_eq_length_filter]

theorem sum_lists {lists : BlockId → Except Fault (List BlockId)} {list : BlockId → List BlockId}
    {toEnd : Edge → Nat} (made : ∀ b, g.Owns b → lists b = .ok (list b))
    (length : ∀ b, g.Owns b → (list b).length = g.edges.toList.countP (toEnd · = b.index))
    (ends_lt : ∀ e ∈ g.edges.toList, toEnd e < g.blockCount) :
    (g.handles.mapM lists).map (fun lists => (lists.map List.length).sum) = .ok g.edgeCount := by
  have all : g.handles.mapM lists = .ok (g.handles.map list) :=
    mapM_eq_ok_map fun b hb => made b (mem_handles.mp hb)
  have lengths : (g.handles.map list).map List.length =
      (List.range g.blockCount).map fun i => g.edges.toList.countP (toEnd · = i) := by
    rw [List.map_map, handles, List.map_map]
    refine List.map_congr_left fun i hi => ?_
    exact length _ (owns_handle.mpr (List.mem_range.mp hi))
  have whole : g.edges.toList.countP (toEnd · < g.blockCount) = g.edges.toList.length :=
    List.countP_eq_length.mpr fun e he => decide_eq_true (ends_lt e he)
  rw [all, Except.map, lengths, sum_countP_range, whole, Array.length_toList, edgeCount]

structure Incidence (g : Graph) (drawn : List Edge) : Prop where
  successors : ∀ b, g.Owns b → g.successors b =
    .ok ((drawn.filter (·.source = b.index)).map fun e => g.handle e.target)
  predecessors : ∀ b, g.Owns b → g.predecessors b =
    .ok ((drawn.filter (·.target = b.index)).map fun e => g.handle e.source)
  symmetric : ∀ u v next before, g.successors u = .ok next → g.predecessors v = .ok before →
    next.count v = before.count u
  successors_sum : (g.handles.mapM g.successors).map (fun lists => (lists.map List.length).sum) =
    .ok g.edgeCount
  predecessors_sum : (g.handles.mapM g.predecessors).map
    (fun lists => (lists.map List.length).sum) = .ok g.edgeCount

theorem Reachable.incidence (hg : g.Reachable) : g.Incidence g.edges.toList := by
  have consistent := hg.consistent
  refine ⟨fun b hb => ?_, fun b hb => ?_, fun u v next before made made' => ?_, ?_, ?_⟩
  · rw [successors_eq_targets hb, hg.targets_eq hb, List.map_map]
    rfl
  · rw [predecessors_eq_sources hb, hg.sources_eq hb, List.map_map]
    rfl
  · obtain ⟨-, -, hu, -⟩ := successors_eq_ok.mp made
    obtain ⟨-, -, hv, -⟩ := predecessors_eq_ok.mp made'
    rw [successors_eq_targets hu] at made
    rw [predecessors_eq_sources hv] at made'
    rw [← Except.ok.inj made, ← Except.ok.inj made', hg.count_targets hu hv,
      hg.count_sources hu hv]
  · exact sum_lists (fun b => successors_eq_targets) (fun b => hg.length_targets)
      consistent.source_lt
  · exact sum_lists (fun b => predecessors_eq_sources) (fun b => hg.length_sources)
      consistent.target_lt

end Graph
end FlowLoops
