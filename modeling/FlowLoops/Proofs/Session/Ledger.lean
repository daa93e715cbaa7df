import FlowLoops.Proofs.Description.Building
import FlowLoops.Proofs.Graph.Incidence
import FlowLoops.Proofs.Session.EdgeCalls
import Mathlib.Logic.Function.Basic

/-! The edges that a session accepts for each of its graphs, told by the calls and their answers. A
copy starts with what was accepted for its original. Every graph has just these edges, in the order
of the calls. -/

namespace FlowLoops
namespace Session

def edgeAt? (s : Session) (p : Place) : Step → Option Edge
  | .edge i x y | .tryEdge i x y =>
    if p = .slot i then
      s.handles[x]?.bind fun a => s.handles[y]?.map fun b => ⟨a.index, b.index⟩
    else none
  | _ => none

def drawn (s : Session) (step : Step) (p : Place) : List Edge :=
  (s.answered (edgeCalls step)).filterMap (s.edgeAt? p)

def described (text : String) : List Edge :=
  match Description.parse text.toList with
  | .error _ => []
  | .ok d => d.edges.map (Description.Edge.within d.labels)

/-- For each place, the edges accepted for the graph there, in the order of the calls. -/
abbrev Ledger := Place → List Edge

namespace Ledger

def append (ledger : Ledger) (more : Place → List Edge) : Ledger := fun p => ledger p ++ more p

def enter (ledger : Ledger) (s : Session) (step : Step) : Ledger :=
  match step with
  | .create => Function.update ledger (.slot s.graphs.size) []
  | .copy i => Function.update ledger (.slot s.graphs.size) (ledger (.slot i))
  | .build text => Function.update ledger (.slot s.graphs.size) (described text)
  | .report i _ _ | .reportClone i _ _ =>
    Function.update ledger (.report s.reports.size) (ledger (.slot i))
  | .edge .. | .tryEdge .. | .edges .. | .affine .. => ledger.append (s.drawn step)
  | _ => ledger

def enterAll (ledger : Ledger) (s : Session) : List Step → Ledger
  | [] => ledger
  | step :: rest => (ledger.enter s step).enterAll (s.perform step).1 rest

def Tells (ledger : Ledger) (s : Session) : Prop :=
  ∀ p g, s.graphAt? p = some g → g.edges.toList = ledger p

variable {ledger : Ledger} {s s' : Session} {step : Step} {p : Place} {g h : Graph} {i : Nat}

theorem append_apply (ledger : Ledger) (more : Place → List Edge) (p : Place) :
    ledger.append more p = ledger p ++ more p := rfl

theorem append_nil (ledger : Ledger) : (ledger.append fun _ => []) = ledger := by
  funext p
  exact List.append_nil _

theorem Tells.append_nil (tells : ledger.Tells s) : (ledger.append fun _ => []).Tells s := by
  rw [Ledger.append_nil]
  exact tells

theorem Tells.congr (tells : ledger.Tells s) (graphs : s'.graphs = s.graphs)
    (reports : s'.reports = s.reports) : ledger.Tells s' := by
  intro p g there
  rw [graphAt?_congr graphs reports] at there
  exact tells p g there

theorem Tells.place (tells : ledger.Tells s) {edges : List Edge} (same : h.edges.toList = edges)
    (after : ∀ q, s'.graphAt? q = if q = p then some h else s.graphAt? q) :
    Tells (Function.update ledger p edges) s' := by
  intro q k there
  rw [after] at there
  by_cases here : q = p
  · subst here
    rw [if_pos rfl] at there
    obtain rfl := Option.some.inj there
    rw [Function.update_self, same]
  · rw [if_neg here] at there
    rw [Function.update_of_ne here]
    exact tells q k there

theorem Tells.absent (tells : ledger.Tells s) (empty : s.graphAt? p = none) (edges : List Edge) :
    Tells (Function.update ledger p edges) s := by
  intro q k there
  have elsewhere : q ≠ p := by
    rintro rfl
    rw [empty] at there
    cases there
  rw [Function.update_of_ne elsewhere]
  exact tells q k there

theorem Tells.setGraph (tells : ledger.Tells s) (there : s.graphs[i]? = some (some g))
    (more : Place → List Edge) (edges : h.edges.toList = g.edges.toList ++ more (.slot i))
    (others : ∀ q, q ≠ .slot i → more q = []) :
    (ledger.append more).Tells (s.setGraph i h) := by
  have inside := (Array.getElem?_eq_some_iff.mp there).1
  have after (q : Place) : (s.setGraph i h).graphAt? q =
      if q = .slot i then some h else s.graphAt? q :=
    @graphAt?_set_slot s (s.setGraph i h) i (some h) inside rfl rfl q
  intro q k now
  rw [after] at now
  by_cases here : q = .slot i
  · subst here
    rw [if_pos rfl] at now
    obtain rfl := Option.some.inj now
    rw [append_apply, edges, tells _ g (graphAt?_slot.mpr there)]
  · rw [if_neg here] at now
    rw [append_apply, others q here, List.append_nil]
    exact tells q k now

theorem Tells.setGraph_self (tells : ledger.Tells s) (there : s.graphs[i]? = some (some g))
    (edges : h.edges = g.edges) : ledger.Tells (s.setGraph i h) := by
  have same : h.edges.toList = g.edges.toList ++ [] := by rw [edges, List.append_nil]
  have entered := tells.setGraph there (fun _ => []) same fun _ _ => rfl
  rw [Ledger.append_nil] at entered
  exact entered

theorem Tells.addGraph (tells : ledger.Tells s) {edges : List Edge}
    (same : h.edges.toList = edges) :
    Tells (Function.update ledger (.slot s.graphs.size) edges) (s.addGraph h).1 :=
  tells.place same (graphAt?_push_slot rfl rfl)

theorem Tells.addReport (tells : ledger.Tells s) {edges : List Edge}
    (same : h.edges.toList = edges) (name : String) (loops : List Loop) :
    Tells (Function.update ledger (.report s.reports.size) edges)
      { s with reports := s.reports.push ⟨name, h, loops⟩ } :=
  tells.place same (graphAt?_push_report (r := ⟨name, h, loops⟩) rfl rfl)

theorem Tells.take (tells : ledger.Tells s) (there : s.graphs[i]? = some (some g))
    (graphs : s'.graphs = s.graphs.setIfInBounds i none) (reports : s'.reports = s.reports) :
    ledger.Tells s' := by
  have inside := (Array.getElem?_eq_some_iff.mp there).1
  intro q k now
  rw [graphAt?_set_slot inside graphs reports] at now
  by_cases here : q = .slot i
  · rw [if_pos here] at now
    cases now
  · rw [if_neg here] at now
    exact tells q k now

section Calls

theorem edgeAt?_congr {t : Session} (handles : t.handles = s.handles) (p : Place) :
    t.edgeAt? p = s.edgeAt? p := by
  funext call
  simp only [edgeAt?, handles]

theorem edgeAt?_of_named {call : Step} {x y : Nat} {a b : BlockId}
    (form : call = .edge i x y ∨ call = .tryEdge i x y) (source : s.handles[x]? = some a)
    (target : s.handles[y]? = some b) (p : Place) :
    s.edgeAt? p call = if p = .slot i then some ⟨a.index, b.index⟩ else none := by
  rcases form with rfl | rfl <;> simp only [edgeAt?, source, target, Option.bind_some,
    Option.map_some]

theorem Tells.call (tells : ledger.Tells s) {call : Step} {x y : Nat} {a : Answer}
    (form : call = .edge i x y ∨ call = .tryEdge i x y) (accepted : (s.perform call).2 = .ok a) :
    (ledger.append fun p => (s.edgeAt? p call).toList).Tells (s.perform call).1 ∧
      (s.perform call).1.handles = s.handles := by
  rcases perform_call form with ⟨g, b, c, there, source, target, -, made⟩ | ⟨r, made⟩
  · have asked := edgeAt?_of_named form source target
    have edges : (g.link b.index c.index).edges.toList =
        g.edges.toList ++ (s.edgeAt? (.slot i) call).toList := by
      rw [asked, if_pos rfl]
      exact Graph.edges_link ..
    rw [made]
    refine ⟨tells.setGraph there (fun p => (s.edgeAt? p call).toList) edges fun q other => ?_, rfl⟩
    show (s.edgeAt? q call).toList = []
    rw [asked, if_neg other, Option.toList_none]
  · rw [made] at accepted
    cases accepted

theorem Tells.answered (tells : ledger.Tells s) {calls : List Step}
    (form : ∀ call ∈ calls, ∃ i x y, call = .edge i x y ∨ call = .tryEdge i x y) :
    (ledger.append fun p => (s.answered calls).filterMap (s.edgeAt? p)).Tells
      (s.run (s.answered calls)) := by
  induction calls generalizing s ledger with
  | nil => exact tells.append_nil
  | cons call rest ih =>
    obtain ⟨⟨i, x, y, shape⟩, forms⟩ := List.forall_mem_cons.mp form
    cases ended : (s.perform call).2 with
    | error r =>
      rw [answered_of_error ended]
      exact tells.append_nil
    | ok a =>
      obtain ⟨entered, handles⟩ := tells.call shape ended
      rw [answered_of_ok ended, run_cons]
      intro p k now
      have told := ih entered forms p k now
      -- no call issues handles, so later calls ask for what they would have asked for before
      rw [append_apply, append_apply, edgeAt?_congr handles p, List.append_assoc] at told
      rw [append_apply, told]
      cases edge : s.edgeAt? p call with
      | none => rw [List.filterMap_cons_none edge, Option.toList_none, List.nil_append]
      | some e => rw [List.filterMap_cons_some edge, Option.toList_some, List.singleton_append]

end Calls

section Steps

theorem Tells.answerWith {α : Type} (tells : ledger.Tells s) (f : α → Answer)
    (made : Except Fault α) : ledger.Tells (s.answerWith f made).1 := by
  rw [answerWith_fst]
  exact tells

theorem edges_createBlocks (g : Graph) (stem : String) (count : Nat) :
    (createBlocks g stem count).edges = g.edges := by
  unfold createBlocks
  induction count with
  | zero => rfl
  | succ n ih =>
    rw [List.range_succ, List.foldl_append]
    exact ih

theorem Tells.build (tells : ledger.Tells s) (text : String) :
    Tells (Function.update ledger (.slot s.graphs.size) (described text)) (s.build text).1 := by
  have refused := tells.absent (graphAt?_next_slot s) (described text)
  unfold Session.build
  split
  · exact refused
  next d parsed =>
    split
    · exact refused.congr rfl rfl
    next g made =>
      obtain ⟨-, rfl⟩ := (Description.build_eq_ok_iff d).mp made
      refine tells.addGraph ?_
      rw [Description.edges_graph, described, parsed]

theorem Tells.perform (tells : ledger.Tells s) (step : Step) :
    (ledger.enter s step).Tells (s.perform step).1 := by
  have draw (draws : drawsEdges step) :
      (ledger.append (s.drawn step)).Tells (s.perform step).1 := by
    rw [perform_fst_eq_run draws]
    exact tells.answered fun call made => edgeCalls_form made
  cases step with
  | create => exact tells.addGraph rfl
  | copy i =>
    refine withGraph_fst (tells.absent (graphAt?_next_slot s) _) fun g there => ?_
    exact tells.addGraph (tells _ g (graphAt?_slot.mpr there))
  | build text => exact tells.build text
  | block i content =>
    exact withGraph_fst tells fun g there =>
      (tells.setGraph_self (h := g.addBlock content) there rfl).congr rfl rfl
  | many i count stem =>
    exact withGraph_fst tells fun g there =>
      (tells.setGraph_self there (edges_createBlocks g stem count)).congr rfl rfl
  | blocks i => exact withGraph_fst tells fun g _ => tells.congr rfl rfl
  | edge i x y => exact draw rfl
  | tryEdge i x y => exact draw rfl
  | edges i base pairs => exact draw rfl
  | affine i base n count a b c d => exact draw rfl
  | owns i x => exact withGraph_fst tells fun g _ => withHandle_fst tells fun b _ => tells
  | successors i x =>
    exact withGraph_fst tells fun g _ => withHandle_fst tells fun b _ => tells.answerWith _ _
  | predecessors i x =>
    exact withGraph_fst tells fun g _ => withHandle_fst tells fun b _ => tells.answerWith _ _
  | content i x =>
    exact withGraph_fst tells fun g _ => withHandle_fst tells fun b _ => tells.answerWith _ _
  | pad i x alignment width precision =>
    exact withGraph_fst tells fun g _ => withHandle_fst tells fun b _ => tells.answerWith _ _
  | setEntry i x =>
    refine withGraph_fst tells fun g there => withHandle_fst tells fun b _ => ?_
    split
    · exact tells
    next h made =>
      obtain ⟨-, rfl⟩ := Graph.designate_eq_ok.mp made
      exact tells.setGraph_self there rfl
  | entry i =>
    refine withGraph_fst tells fun g _ => ?_
    split
    · exact tells
    · exact tells.congr rfl rfl
  | size i => exact withGraph_fst tells fun g _ => tells
  | dump i => exact withGraph_fst tells fun g _ => tells
  | dot i => exact withGraph_fst tells fun g _ => tells
  | equal i j => exact withGraph_fst tells fun g _ => withGraph_fst tells fun h _ => tells
  | compare x y => exact withHandle_fst tells fun a _ => withHandle_fst tells fun b _ => tells
  | detect i =>
    exact withGraph_fst tells fun g _ => detect_fst (fun trace => tells.congr rfl rfl)
      fun trace loops _ => tells.congr rfl rfl
  | summary i =>
    refine withGraph_fst tells fun g _ => detect_fst (fun trace => tells.congr rfl rfl)
      fun trace loops _ => ?_
    have traced : ledger.Tells { s with trace } := tells.congr rfl rfl
    exact traced.answerWith _ _
  | loop loopSet index =>
    exact withLoop_fst tells fun l => tells.answerWith _ _
  | contains loopSet index x =>
    exact withLoop_fst tells fun l => withHandle_fst tells fun b _ => tells
  | loopsEqual i j => exact withLoops_fst tells fun a _ => withLoops_fst tells fun b _ => tells
  | report i loopSet name =>
    have refused := tells.absent (graphAt?_next_report s) (ledger (.slot i))
    refine withGraph_fst refused fun g there => withLoops_fst refused fun loops _ => ?_
    have taken : ledger.Tells { s with graphs := s.graphs.setIfInBounds i none } :=
      tells.take there rfl rfl
    exact taken.addReport (tells _ g (graphAt?_slot.mpr there)) name loops
  | reportClone i loopSet name =>
    have refused := tells.absent (graphAt?_next_report s) (ledger (.slot i))
    refine withGraph_fst refused fun g there => withLoops_fst refused fun loops _ => ?_
    have counted : ledger.Tells { s with nextTag := s.nextTag + 1 } := tells.congr rfl rfl
    exact counted.addReport (h := g.copy s.nextTag) (tells _ g (graphAt?_slot.mpr there)) name loops
  | render first last format =>
    show ledger.Tells (s.render first last format).1
    unfold Session.render
    split
    · split
      · exact tells
      · exact tells.answerWith _ _
    · exact tells
  | openTracer title => exact tells.congr rfl rfl
  | event tracer text => exact withTracer_fst tells fun t => tells.congr rfl rfl
  | closeTracer tracer =>
    refine withTracer_fst tells fun t => ?_
    have closed : ledger.Tells { s with
        trace := (s.trace.leave t).1, tracers := s.tracers.setIfInBounds tracer none } :=
      tells.congr rfl rfl
    exact closed.answerWith _ _

theorem Tells.run (tells : ledger.Tells s) (steps : List Step) :
    (ledger.enterAll s steps).Tells (s.run steps) := by
  induction steps generalizing ledger s with
  | nil => exact tells
  | cons step rest ih => exact ih (tells.perform step)

end Steps
end Ledger

/-- Whatever is done to it and to other graphs, the successors and predecessors of the blocks of a
graph are those of the edges accepted for it, in the order of the calls. -/
theorem edges_follow_calls (limit : Option Level) (steps : List Step) :
    let s := (start limit).run steps
    let ledger := Ledger.enterAll (fun _ => []) (start limit) steps
    ∀ p g, s.graphAt? p = some g → g.Incidence (ledger p) ∧ (ledger p).length = g.edgeCount := by
  intro s ledger p g there
  have nothing : Ledger.Tells (fun _ => []) (start limit) := by
    intro q k missing
    cases q <;> cases missing
  have told : g.edges.toList = ledger p := nothing.run steps p g there
  have reachable := ((sound_start limit).run steps).reachable p g there
  rw [← told]
  exact ⟨reachable.incidence, Array.length_toList⟩

def copyMidway : List Step :=
  [.create, .block 0 "a", .block 0 "b", .edge 0 0 1, .edge 0 0 0, .tryEdge 0 0 1, .copy 0,
    .blocks 1, .edge 1 0 1, .tryEdge 1 3 2, .tryEdge 0 2 1, .setEntry 1 0, .edge 0 1 1]

theorem edges_of_copy :
    ∃ g, ((start none).run copyMidway).graphAt? (.slot 1) = some g ∧
      g.successors ⟨1, 0⟩ = .ok [⟨1, 1⟩, ⟨1, 0⟩, ⟨1, 1⟩] ∧
      g.predecessors ⟨1, 0⟩ = .ok [⟨1, 0⟩, ⟨1, 1⟩] ∧ g.edgeCount = 4 := by
  have there : ((start none).run copyMidway).graphAt? (.slot 1) =
      some ⟨1, #[⟨"a", #[1, 0, 1], #[0, 1]⟩, ⟨"b", #[0], #[0, 0]⟩],
        #[⟨0, 1⟩, ⟨0, 0⟩, ⟨0, 1⟩, ⟨1, 0⟩], none⟩ := by
    decide +kernel
  have entered : Ledger.enterAll (fun _ => []) (start none) copyMidway (.slot 1) =
      [⟨0, 1⟩, ⟨0, 0⟩, ⟨0, 1⟩, ⟨1, 0⟩] := by
    decide +kernel
  obtain ⟨incidence, count⟩ := edges_follow_calls none copyMidway (.slot 1) _ there
  rw [entered] at incidence count
  have owned : BlockId.index ⟨1, 0⟩ < 2 := by decide
  refine ⟨_, there, ?_, ?_, count.symm⟩
  · exact incidence.successors ⟨1, 0⟩ ⟨rfl, owned⟩
  · exact incidence.predecessors ⟨1, 0⟩ ⟨rfl, owned⟩

end Session
end FlowLoops
