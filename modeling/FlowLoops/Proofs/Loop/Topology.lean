import FlowLoops.Proofs.Graph.History
import FlowLoops.Proofs.Report.Agreement

/-! The loops of a graph, told by index, depend on the indices of the successors alone. Graphs that
grow by the same edges out of each block stay alike, in whatever order the calls came. -/

namespace FlowLoops

def SameLoops (g h : Graph) : Prop :=
  ∃ loops loops', g.loops = .ok loops ∧ h.loops = .ok loops' ∧
    loops.map Loop.indices = loops'.map Loop.indices

namespace Graph
variable {g h : Graph} {calls calls' : List Call}

def successorIndices (g : Graph) (i : Nat) : Except Fault (List Nat) :=
  (g.successors (g.handle i)).map fun next => next.map (·.index)

structure SameTopology (g h : Graph) : Prop where
  blockCount : g.blockCount = h.blockCount
  successors : ∀ i < g.blockCount, g.successorIndices i = h.successorIndices i

/-- Two histories that add as many blocks, and out of each block the same edges in the same order.
Calls for different blocks come in any order. -/
structure Interleaved (g h : Graph) (calls calls' : List Call) : Prop where
  blocks : calls.countP Call.addsBlock = calls'.countP Call.addsBlock
  edges : ∀ i, targetsFrom (g.drawn calls) i = targetsFrom (h.drawn calls') i

theorem targetsFrom_append (edges more : List Edge) (i : Nat) :
    targetsFrom (edges ++ more) i = targetsFrom edges i ++ targetsFrom more i := by
  rw [targetsFrom, List.filter_append, List.map_append]
  rfl

theorem Reachable.successorIndices_eq (hg : g.Reachable) {i : Nat} (hi : i < g.blockCount) :
    g.successorIndices i = .ok (targetsFrom g.edges.toList i) := by
  have owned : g.Owns (g.handle i) := owns_handle.mpr hi
  have back : (fun b : BlockId => b.index) ∘ g.handle = id := rfl
  rw [successorIndices, successors_eq_targets owned, hg.targets_eq owned, Except.map,
    List.map_map, back, List.map_id]
  rfl

theorem Reachable.targetsFrom_eq_nil (hg : g.Reachable) {i : Nat} (hi : g.blockCount ≤ i) :
    targetsFrom g.edges.toList i = [] := by
  rw [targetsFrom, List.map_eq_nil_iff, List.filter_eq_nil_iff]
  intro e he
  have inside := hg.consistent.source_lt e he
  simpa using Nat.ne_of_lt (Nat.lt_of_lt_of_le inside hi)

section Stores
variable (hg : g.Reachable) (hh : h.Reachable)
include hg hh

theorem sameTopology_iff : SameTopology g h ↔ g.blockCount = h.blockCount ∧
    ∀ i, targetsFrom g.edges.toList i = targetsFrom h.edges.toList i := by
  constructor
  · rintro ⟨blockCount, successors⟩
    refine ⟨blockCount, fun i => ?_⟩
    rcases Nat.lt_or_ge i g.blockCount with hi | hi
    · have same := successors i hi
      rw [hg.successorIndices_eq hi, hh.successorIndices_eq (blockCount ▸ hi)] at same
      exact Except.ok.inj same
    · -- an index that has no block yet is the source of no edge
      rw [hg.targetsFrom_eq_nil hi, hh.targetsFrom_eq_nil (blockCount ▸ hi)]
  · rintro ⟨blockCount, same⟩
    refine ⟨blockCount, fun i hi => ?_⟩
    rw [hg.successorIndices_eq hi, hh.successorIndices_eq (blockCount ▸ hi), same i]

theorem SameTopology.sameLoops (same : SameTopology g h) : SameLoops g h := by
  obtain ⟨blockCount, targets⟩ := (sameTopology_iff hg hh).mp same
  have shape : SameShape g h :=
    sameShape_of_targetsFrom hg hh blockCount.symm fun i _ => (targets i).symm
  obtain ⟨way, found, -, detected⟩ := exists_forest hg
  refine ⟨_, _, detected, shape.loops hg hh detected, ?_⟩
  rw [Loop.map_indices_counterpart]

theorem SameTopology.after (same : SameTopology g h) (interleaved : Interleaved g h calls calls') :
    SameTopology (g.after calls) (h.after calls') := by
  obtain ⟨blockCount, targets⟩ := (sameTopology_iff hg hh).mp same
  refine (sameTopology_iff (hg.after calls) (hh.after calls')).mpr ⟨?_, fun i => ?_⟩
  · rw [blockCount_after, blockCount_after, blockCount, interleaved.blocks]
  · rw [edges_after, edges_after, targetsFrom_append, targetsFrom_append, targets i,
      interleaved.edges i]

end Stores

theorem sameTopology_copy (hg : g.Reachable) (tag : Nat) : SameTopology g (g.copy tag) :=
  (sameTopology_iff hg (.copy tag hg)).mpr ⟨rfl, fun _ => rfl⟩

/-- Graphs alike in their successor indices have the same loops, and so have they after histories
that draw the same edges out of each block. A copy is alike. -/
theorem loops_depend_on_topology (hg : g.Reachable) (hh : h.Reachable) (same : SameTopology g h) :
    SameLoops g h ∧
      (∀ calls calls', Interleaved g h calls calls' →
        SameTopology (g.after calls) (h.after calls') ∧
          SameLoops (g.after calls) (h.after calls')) ∧
      ∀ tag, SameTopology g (g.copy tag) ∧ SameLoops g (g.copy tag) := by
  refine ⟨same.sameLoops hg hh, fun calls calls' interleaved => ?_, fun tag => ?_⟩
  · have later := same.after hg hh interleaved
    exact ⟨later, later.sameLoops (hg.after calls) (hh.after calls')⟩
  · have copy := sameTopology_copy hg tag
    exact ⟨copy, copy.sameLoops hg (.copy tag hg)⟩

def bySource : List Call :=
  [.addBlock "head", .addBlock "tail", .connect ⟨1, 0⟩ ⟨1, 1⟩, .connect ⟨1, 0⟩ ⟨1, 0⟩,
    .connect ⟨1, 1⟩ ⟨1, 0⟩]

def shuffled : List Call :=
  [.addBlock "x", .addBlock "", .connect ⟨2, 1⟩ ⟨2, 0⟩, .connectChecked ⟨1, 0⟩ ⟨2, 1⟩,
    .connect ⟨2, 0⟩ ⟨2, 1⟩, .designate ⟨2, 1⟩, .connectChecked ⟨2, 0⟩ ⟨2, 0⟩]

theorem sameLoops_shuffled :
    ((empty 1).Reachable ∧ (empty 2).Reachable ∧ SameTopology (empty 1) (empty 2)) ∧
      Interleaved (empty 1) (empty 2) bySource shuffled ∧
      SameLoops ((empty 1).after bySource) ((empty 2).after shuffled) ∧
      ((empty 1).after bySource).predecessors ⟨1, 0⟩ = .ok [⟨1, 0⟩, ⟨1, 1⟩] ∧
      ((empty 2).after shuffled).predecessors ⟨2, 0⟩ = .ok [⟨2, 1⟩, ⟨2, 0⟩] := by
  have alike : SameTopology (empty 1) (empty 2) := ⟨rfl, fun i hi => absurd hi (Nat.not_lt_zero i)⟩
  have edges : (empty 1).drawn bySource = [⟨0, 1⟩, ⟨0, 0⟩, ⟨1, 0⟩] := by decide
  have edges' : (empty 2).drawn shuffled = [⟨1, 0⟩, ⟨0, 1⟩, ⟨0, 0⟩] := by decide
  have interleaved : Interleaved (empty 1) (empty 2) bySource shuffled := by
    refine ⟨by decide, fun i => ?_⟩
    rw [edges, edges', targetsFrom, targetsFrom]
    rcases i with - | - | i
    · rfl
    · rfl
    · simp
  have found := loops_depend_on_topology (.empty 1) (.empty 2) alike
  exact ⟨⟨.empty 1, .empty 2, alike⟩, interleaved, (found.2.1 _ _ interleaved).2, by rfl, by rfl⟩

end Graph
end FlowLoops
