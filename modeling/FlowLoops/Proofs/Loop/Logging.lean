import FlowLoops.Proofs.Loop.Detection
import FlowLoops.Proofs.Loop.Forest
import FlowLoops.Proofs.Search.Iteration

/-! What a detection records. An event names the two ends of the edge that an iteration looks at, while
the loop is cut out of the path. Both tell the same latch and the same header. -/

namespace FlowLoops

namespace Search
variable {g : Graph} {s t : Search} {roots : List BlockId} {heads : List Search}

def met? (s : Search) : Option BackEdge :=
  match s.frames with
  | ⟨latch, _, header :: _⟩ :: _ =>
    match s.marks[header.index]? with
    | some (.active _) => some ⟨latch, header⟩
    | _ => none
  | _ => none

theorem Move.backEdges (busy : s.frames ≠ []) (m : Move g s t) :
    t.backEdges.toList = s.backEdges.toList ++ s.met?.toList := by
  cases m with
  | root idle => exact absurd idle busy
  | descend top fresh =>
    rw [Fresh] at fresh
    simp [met?, top, fresh, enter, withFrames]
  | close top active => simp [met?, top, active, record, withFrames]
  | skip top finished =>
    rw [Finished] at finished
    simp [met?, top, finished, withFrames]
  | leave top => simp [met?, top, Search.leave]

theorem Iterates.backEdges (hg : g.Reachable) (h : Iterates g s heads t) (hs : Invariant g s) :
    t.backEdges.toList = s.backEdges.toList ++ heads.filterMap met? := by
  refine h.keeps (P := fun u seen =>
    u.backEdges.toList = s.backEdges.toList ++ seen.filterMap met?) hg ?_ hs []
    (List.append_nil _).symm
  intro u v seen hu busy m so_far
  rw [m.backEdges busy, so_far, List.filterMap_append, List.append_assoc]
  cases met : u.met? <;> simp [met]

theorem Rounds.backEdges (hg : g.Reachable) {rounds : List Round} (h : Rounds g s roots rounds t)
    (owned : ∀ b ∈ roots, g.Owns b) (hs : Invariant g s) (idle : s.frames = [])
    (none : s.backEdges = #[]) :
    t.backEdges.toList = (rounds.flatMap Round.heads).filterMap met? := by
  refine h.keeps (P := fun u done =>
    u.backEdges.toList = (done.flatMap Round.heads).filterMap met?) hg ?_ owned hs idle []
    (congrArg Array.toList none)
  intro u v b heads done hu idle owned fresh iterates so_far
  have round := iterates.backEdges hg (hu.enter_root idle owned fresh)
  rw [round, List.flatMap_append, List.flatMap_singleton, List.filterMap_append, ← so_far]
  rfl

end Search

namespace Trace
open Search
variable {g : Graph} {t : Trace}

def backEdgeLine (level : Nat) (e : BackEdge) : Record :=
  eventLine level s!"back-edge {e.latch} -> {e.header}"

def summaryLine (g : Graph) (loopCount : Nat) : Record :=
  ⟨.debug, s!"{loopCount} loop(s) found among {g.blockCount} blocks" ++
    s!" and {g.edgeCount} edges"⟩

def detectionLines (level : Nat) (g : Graph) (ends : List BackEdge) : List Record :=
  enterLine level (detectTitle g) :: ends.map (backEdgeLine level) ++
    [summaryLine g ends.length, leaveLine level (detectTitle g)]

/-- A detection records a line for its start, one for each loop in the order of the loops, the
numbers of loops, blocks and edges, and a line for its end, which stands as deep as that for its
start. It leaves the depth as it was, and meets no fault when it closes its tracer. -/
theorem detection_tells_loops (hg : g.Reachable) (t : Trace) (traced : t.silent = false) :
    ∃ loops ends, g.loops = .ok loops ∧
      List.Forall₂ (fun l e => l.latch? = some e.latch ∧ l.header? = some e.header) loops ends ∧
      (∀ rounds s, Rounds g (initial g) g.handles rounds s →
        (rounds.flatMap Round.heads).filterMap met? = ends) ∧
      t.detect g = (t.emitAll (detectionLines t.depth g ends), .ok loops) ∧
      (t.detect g).1.depth = t.depth ∧
      (t.limit = some .trace → (t.detect g).1.records.toList =
        t.records.toList ++ detectionLines t.depth g ends) := by
  obtain ⟨s, made, run, -, finished⟩ := exists_run hg
  obtain ⟨way, hw⟩ := run.exists_ways hg
  have forest := run.forest hg hw finished
  have detected : g.loops = .ok s.loops.toList := by
    rw [Graph.loops, made]
    rfl
  have count : s.loops.size = s.backEdges.toList.length := by
    rw [← Array.length_toList, hw.loops, List.length_map]
  have lines : (t.detect g).1 = t.emitAll (detectionLines t.depth g s.backEdges.toList) := by
    rw [detect_fst traced, foundLines, made]
    dsimp only
    rw [count, List.cons_append, List.append_assoc]
    rfl
  -- the ends of the back edges at hand are the ends of the loops cut out of the path
  refine ⟨s.loops.toList, s.backEdges.toList, detected, ?_, fun rounds u search => ?_, ?_, ?_,
    fun limited => ?_⟩
  · rw [hw.loops, List.forall₂_map_left_iff, List.forall₂_same]
    exact fun e he => forest.ends_loopAlong he
  · obtain rfl := Except.ok.inj (made.symm.trans search.exploreAll)
    exact (search.backEdges hg (fun b hb => Graph.mem_handles.mp hb) (invariant_initial g) rfl
      rfl).symm
  · rw [← lines, ← detected, ← detect_snd t g]
  · rw [lines, depth_emitAll]
  · rw [lines, records_emitAll limited, List.filter_eq_self.mpr]
    exact fun line _ => decide_eq_true line.level.le_trace

def twoDeep : Trace := ⟨some .trace, false, 2, #[]⟩

theorem nested_told : Graph.nested.Reachable ∧ (twoDeep.detect Graph.nested).1.depth = 2 ∧
    (twoDeep.detect Graph.nested).1.records.toList =
      [⟨.trace, "    -> detect loops over 4 blocks"⟩,
        ⟨.trace, "     back-edge bb2 -> bb1"⟩,
        ⟨.trace, "     back-edge bb2 -> bb2"⟩,
        ⟨.trace, "     back-edge bb3 -> bb0"⟩,
        ⟨.debug, "3 loop(s) found among 4 blocks and 7 edges"⟩,
        ⟨.trace, "    <- detect loops over 4 blocks"⟩] := by
  obtain ⟨loops, ends, detected, named, -, -, depth, told⟩ :=
    detection_tells_loops Graph.reachable_nested twoDeep rfl
  have same : loops.map (fun l => (l.latch?, l.header?)) =
      ends.map fun e => (some e.latch, some e.header) := by
    rw [← List.forall₂_eq_eq_eq, List.forall₂_map_left_iff, List.forall₂_map_right_iff]
    exact named.imp fun l e h => Prod.ext h.1 h.2
  have injective : Function.Injective fun e : BackEdge => (some e.latch, some e.header) := by
    rintro ⟨a, b⟩ ⟨c, d⟩ same
    cases same
    rfl
  obtain rfl := Except.ok.inj (detected.symm.trans Graph.loops_nested)
  have known : [⟨⟨0, 2⟩, ⟨0, 1⟩⟩, ⟨⟨0, 2⟩, ⟨0, 2⟩⟩, ⟨⟨0, 3⟩, ⟨0, 0⟩⟩] = ends :=
    List.map_injective_iff.mpr injective same
  refine ⟨Graph.reachable_nested, depth, (told rfl).trans ?_⟩
  rw [← known]
  decide +kernel

end Trace
end FlowLoops
