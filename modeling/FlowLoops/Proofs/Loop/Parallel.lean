import FlowLoops.Proofs.Loop.Shape
import FlowLoops.Proofs.Search.Count
import FlowLoops.Proofs.Search.Repeats

/-! Parallel edges. A loop is reported once for each copy of the edge that closes it, and apart from
these repeats the loops are those of the graph with the first copies alone. -/

namespace FlowLoops
variable {g h : Graph} {way : BlockId → List BlockId} {found : List BackEdge} {u v : BlockId}

def BackEdge.toEdge (e : BackEdge) : Edge := ⟨e.latch.index, e.header.index⟩

namespace Graph

theorem Reachable.count_targets (hg : g.Reachable) (hu : g.Owns u) (hv : g.Owns v) :
    (g.targets u).count v = g.edges.toList.count ⟨u.index, v.index⟩ := by
  have target_iff (j : Nat) : g.handle j = v ↔ j = v.index := by
    rw [hv.eq_handle]
    exact ⟨congrArg BlockId.index, congrArg g.handle⟩
  rw [hg.targets_eq hu, List.count, List.count, List.countP_map, List.countP_map,
    List.countP_filter]
  refine List.countP_congr fun ⟨source, target⟩ _ => ?_
  simp [target_iff, and_comm]

/-- A graph has the same blocks as another, and of its edges the first copies, in order. -/
structure FirstCopies (g h : Graph) : Prop where
  blockCount : h.blockCount = g.blockCount
  edges : h.edges.toList = g.edges.toList.eraseDups

theorem exists_firstCopies (hg : g.Reachable) : ∃ h : Graph, h.Reachable ∧ g.FirstCopies h := by
  have within : ∀ e ∈ g.edges.toList.eraseDups,
      e.source < (g.blocks.toList.map (·.content)).length ∧
        e.target < (g.blocks.toList.map (·.content)).length := by
    intro e he
    rw [List.length_map, Array.length_toList]
    have listed := List.mem_eraseDups.mp he
    exact ⟨hg.consistent.source_lt e listed, hg.consistent.target_lt e listed⟩
  refine ⟨_, @reachable_ofLists g.tag _ _ within, ?_, edges_ofLists ..⟩
  rw [blockCount_ofLists, List.length_map, Array.length_toList]
  rfl

theorem FirstCopies.targets_copy (first : g.FirstCopies h) (hg : g.Reachable) (hh : h.Reachable)
    (u : BlockId) : (h.copy g.tag).targets u = (g.targets u).eraseDups := by
  have size : h.blocks.size = g.blocks.size := first.blockCount
  have owns_iff : (h.copy g.tag).Owns u ↔ g.Owns u := by
    rw [Owns, Owns, copy, size]
  by_cases hu : g.Owns u
  · have hu' : (h.copy g.tag).Owns u := owns_iff.mpr hu
    have edges : (h.copy g.tag).edges.toList = g.edges.toList.eraseDups := first.edges
    have copy : (h.copy g.tag).Reachable := .copy g.tag hh
    rw [copy.targets_eq hu', hg.targets_eq hu, edges, ← eraseDups_filter,
      eraseDups_map_of_injOn, eraseDups_map_of_injOn]
    · rfl
    · rintro ⟨i, j⟩ he ⟨k, l⟩ hf rfl
      obtain rfl := of_decide_eq_true (List.mem_filter.mp he).2
      obtain rfl := of_decide_eq_true (List.mem_filter.mp hf).2
      rfl
    · intro i _ j _ same
      exact congrArg BlockId.index same
  · rw [targets_of_not_owns hu, targets_of_not_owns (mt owns_iff.mp hu), List.eraseDups_nil]

end Graph

theorem exists_counted_forest (hg : g.Reachable) :
    ∃ way found, Forest g way found ∧ g.loops = .ok (found.map (loopAlong way)) ∧
      ∀ e ∈ found, found.count e = g.edges.toList.count e.toEdge := by
  obtain ⟨s, made, run, -, finished⟩ := Search.exists_run hg
  obtain ⟨way, hw⟩ := run.exists_ways hg
  refine ⟨way, s.backEdges.toList, run.forest hg hw finished, ?_, fun e he => ?_⟩
  · rw [Graph.loops, made, ← hw.loops]
    rfl
  · have adjacent := (run.invariant hg).adjacent_of_passed (hw.back e he).1
    rw [run.count_backEdges hg finished he]
    exact hg.count_targets adjacent.owns_left (adjacent.owns_right hg)

theorem Forest.eq_of_ends (hf : Forest g way found) {e f : BackEdge} (he : e ∈ found)
    (hf' : f ∈ found) (latch : (loopAlong way e).latch? = (loopAlong way f).latch?)
    (header : (loopAlong way e).header? = (loopAlong way f).header?) : e = f := by
  obtain ⟨latch_e, header_e⟩ := hf.ends_loopAlong he
  obtain ⟨latch_f, header_f⟩ := hf.ends_loopAlong hf'
  rw [latch_e, latch_f] at latch
  rw [header_e, header_f] at header
  cases e
  cases f
  rw [BackEdge.mk.injEq]
  exact ⟨Option.some.inj latch, Option.some.inj header⟩

theorem Forest.loopAlong_injOn (hf : Forest g way found) :
    ∀ e ∈ found, ∀ f ∈ found, loopAlong way e = loopAlong way f → e = f :=
  fun _ he _ hf' same => hf.eq_of_ends he hf' (congrArg _ same) (congrArg _ same)

theorem count_map_of_injOn {α β : Type} [DecidableEq α] [DecidableEq β] {f : α → β} {l : List α}
    (inj : ∀ a ∈ l, ∀ b ∈ l, f a = f b → a = b) {a : α} (ha : a ∈ l) :
    (l.map f).count (f a) = l.count a := by
  rw [List.count, List.countP_map, List.count]
  refine List.countP_congr fun b hb => ?_
  simp only [Function.comp_apply, beq_iff_eq]
  exact ⟨inj b hb a ha, congrArg f⟩

theorem Forest.toEdge_injOn (hf : Forest g way found) (hg : g.Reachable) :
    ∀ e ∈ found, ∀ f ∈ found, e.toEdge = f.toEdge → e = f := by
  rintro ⟨u, v⟩ he ⟨u', v'⟩ hf' same
  obtain ⟨step, -⟩ := (hf.back_iff u v).mp he
  obtain ⟨step', -⟩ := (hf.back_iff u' v').mp hf'
  injection same with latch header
  rw [step.owns_left.eq_of_index step'.owns_left latch,
    (step.owns_right hg).eq_of_index (step'.owns_right hg) header]

theorem Graph.FirstCopies.nodup_loops (first : g.FirstCopies h) (hh : h.Reachable)
    {loops : List Loop} (detected : h.loops = .ok loops) : loops.Nodup := by
  obtain ⟨way, found, hf, detected', counts⟩ := exists_counted_forest hh
  obtain rfl := Except.ok.inj (detected.symm.trans detected')
  have once : found.Nodup := by
    rw [List.nodup_iff_count_le_one]
    intro e
    by_cases he : e ∈ found
    · rw [counts e he, first.edges]
      exact List.nodup_iff_count_le_one.mp (nodup_eraseDups _) _
    · rw [List.count_eq_zero.mpr he]
      exact Nat.zero_le 1
  exact once.map_on hf.loopAlong_injOn

theorem Graph.FirstCopies.loops (first : g.FirstCopies h) (hg : g.Reachable) (hh : h.Reachable)
    {loops : List Loop} (detected : g.loops = .ok loops) :
    h.loops = .ok (loops.eraseDups.map (Loop.map h.counterpart)) := by
  -- the copy under the tag of `g` has the handles of `g`, and can be searched beside it
  have copy : (h.copy g.tag).Reachable := .copy g.tag hh
  have first' : g.FirstCopies (h.copy g.tag) := ⟨first.blockCount, first.edges⟩
  have handles : (h.copy g.tag).handles = g.handles := by
    rw [Graph.handles, first'.blockCount]
    rfl
  obtain ⟨s, made, rep⟩ := Search.exists_represents hg
  obtain ⟨t, made', rep'⟩ := Search.exists_represents copy
  have detected' : (h.copy g.tag).loops = .ok t.loops.toList := by
    rw [Graph.loops, made']
    rfl
  have nodup := first'.nodup_loops copy detected'
  rw [← rep'.loops_eq, handles] at nodup
  have start : Tour.Condenses .start .start := ⟨rfl, rfl, rfl, rfl⟩
  have condensed := start.visitAll (first.targets_copy hg hh) nodup
  rw [Graph.loops, made] at detected
  obtain rfl := Except.ok.inj detected
  have same : (h.copy g.tag).SameShape h := Graph.sameShape_of_edges copy hh rfl rfl
  rw [same.loops copy hh detected', ← rep'.loops_eq, handles, condensed.loops_eq, rep.loops_eq]

theorem loops_of_parallel_edges (hg : g.Reachable) :
    ∃ loops, g.loops = .ok loops ∧
      (∀ l ∈ loops, ∃ u v, l.latch? = some u ∧ l.header? = some v ∧
        loops.count l = g.edges.toList.count ⟨u.index, v.index⟩) ∧
      (∀ l ∈ loops, ∀ k ∈ loops, l.latch? = k.latch? → l.header? = k.header? → l = k) ∧
      loops.length ≤ g.edgeCount ∧
      (∃ h : Graph, h.Reachable ∧ g.FirstCopies h) ∧
      ∀ h : Graph, h.Reachable → g.FirstCopies h →
        h.loops = .ok (loops.eraseDups.map (Loop.map h.counterpart)) := by
  obtain ⟨way, found, hf, detected, counts⟩ := exists_counted_forest hg
  refine ⟨_, detected, fun l hl => ?_, fun l hl k hk latch header => ?_, ?_,
    Graph.exists_firstCopies hg, fun h hh first => first.loops hg hh detected⟩
  · obtain ⟨e, he, rfl⟩ := List.mem_map.mp hl
    obtain ⟨latch, header⟩ := hf.ends_loopAlong he
    refine ⟨e.latch, e.header, latch, header, ?_⟩
    rw [count_map_of_injOn hf.loopAlong_injOn he]
    exact counts e he
  · obtain ⟨e, he, rfl⟩ := List.mem_map.mp hl
    obtain ⟨f, hf', rfl⟩ := List.mem_map.mp hk
    rw [hf.eq_of_ends he hf' latch header]
  · -- the edges that close loops are among the edges of the graph, copies counted
    have among : (found.map BackEdge.toEdge).Subperm g.edges.toList := by
      rw [List.subperm_ext_iff]
      intro x hx
      obtain ⟨e, he, rfl⟩ := List.mem_map.mp hx
      rw [count_map_of_injOn (hf.toEdge_injOn hg) he, counts e he]
    simpa [Graph.edgeCount] using among.length_le

namespace Graph

def repeated : Graph :=
  ofLists 0 ["a", "b", "c"]
    [⟨0, 1⟩, ⟨1, 0⟩, ⟨0, 1⟩, ⟨1, 2⟩, ⟨1, 0⟩, ⟨2, 2⟩, ⟨0, 2⟩, ⟨2, 2⟩]

def once : Graph := ofLists 1 ["a", "b", "c"] [⟨0, 1⟩, ⟨1, 0⟩, ⟨1, 2⟩, ⟨2, 2⟩, ⟨0, 2⟩]

theorem reachable_repeated : repeated.Reachable := reachable_ofLists (by decide)

theorem reachable_once : once.Reachable := reachable_ofLists (by decide)

theorem loops_repeated : repeated.loops =
    .ok [⟨[⟨0, 0⟩, ⟨0, 1⟩, ⟨0, 0⟩]⟩, ⟨[⟨0, 2⟩, ⟨0, 2⟩]⟩, ⟨[⟨0, 2⟩, ⟨0, 2⟩]⟩,
      ⟨[⟨0, 0⟩, ⟨0, 1⟩, ⟨0, 0⟩]⟩] := by
  cbv

theorem firstCopies_once : repeated.FirstCopies once := by
  refine ⟨?_, ?_⟩
  · rw [once, repeated, blockCount_ofLists, blockCount_ofLists]
  · rw [once, repeated, edges_ofLists, edges_ofLists]
    rfl

end Graph

theorem loops_once : Graph.repeated.Reachable ∧ Graph.once.Reachable ∧
    Graph.repeated.FirstCopies Graph.once ∧
    Graph.once.loops = .ok [⟨[⟨1, 0⟩, ⟨1, 1⟩, ⟨1, 0⟩]⟩, ⟨[⟨1, 2⟩, ⟨1, 2⟩]⟩] := by
  obtain ⟨loops, detected, -, -, -, -, condensed⟩ :=
    loops_of_parallel_edges Graph.reachable_repeated
  obtain rfl := Except.ok.inj (detected.symm.trans Graph.loops_repeated)
  exact ⟨Graph.reachable_repeated, Graph.reachable_once, Graph.firstCopies_once,
    condensed Graph.once Graph.reachable_once Graph.firstCopies_once⟩

end FlowLoops
