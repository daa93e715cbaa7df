import FlowLoops.Proofs.Description.Labels
import FlowLoops.Proofs.Graph.Growth
import FlowLoops.Proofs.Loop.Detection
import FlowLoops.Proofs.Loop.Soundness
import FlowLoops.Session.Step

/-! What a step of a session can do to the graphs, handles and loops that the session keeps. -/

namespace FlowLoops
namespace Session

inductive Issues (s : Session) : Step → Nat → BlockId → Prop
  | block {i : Nat} {content : String} {g : Graph} (there : s.graphs[i]? = some (some g)) :
    Issues s (.block i content) i (g.issueBlock content).2
  | many {i count k : Nat} {stem : String} {g : Graph} (there : s.graphs[i]? = some (some g))
    (hk : k < count) : Issues s (.many i count stem) i (g.handle (g.blockCount + k))
  | blocks {i : Nat} {g : Graph} {b : BlockId} (there : s.graphs[i]? = some (some g))
    (listed : b ∈ g.handles) : Issues s (.blocks i) i b
  | successors {i handle : Nat} {g : Graph} {a b : BlockId} {next : List BlockId}
    (there : s.graphs[i]? = some (some g)) (named : s.handles[handle]? = some a)
    (made : g.successors a = .ok next) (listed : b ∈ next) : Issues s (.successors i handle) i b
  | predecessors {i handle : Nat} {g : Graph} {a b : BlockId} {next : List BlockId}
    (there : s.graphs[i]? = some (some g)) (named : s.handles[handle]? = some a)
    (made : g.predecessors a = .ok next) (listed : b ∈ next) :
    Issues s (.predecessors i handle) i b
  | entry {i : Nat} {g : Graph} {b : BlockId} (there : s.graphs[i]? = some (some g))
    (designated : g.entry = some b) : Issues s (.entry i) i b
  | detect {i : Nat} {g : Graph} {loops : List Loop} {l : Loop} {b : BlockId}
    (there : s.graphs[i]? = some (some g)) (made : g.loops = .ok loops) (hl : l ∈ loops)
    (hb : b ∈ l.blocks) : Issues s (.detect i) i b
  | summary {i : Nat} {g : Graph} {loops : List Loop} {l : Loop} {b : BlockId}
    (there : s.graphs[i]? = some (some g)) (made : g.loops = .ok loops) (hl : l ∈ loops)
    (hb : b ∈ l.blocks) : Issues s (.summary i) i b

/-- What a step can do, apart from its answer. -/
inductive Change (s : Session) (step : Step) : Session → Prop
  | idle (trace : Trace) (tracers : Array (Option Tracer)) :
    Change s step { s with trace, tracers }
  /-- a build that fails after it took a tag -/
  | spend : Change s step { s with nextTag := s.nextTag + 1 }
  | create {g : Graph} (hg : g.Reachable) (tag : g.tag = s.nextTag) :
    Change s step { s with nextTag := s.nextTag + 1, graphs := s.graphs.push (some g) }
  | grow {i : Nat} {g h : Graph} {handles : Array BlockId} (there : s.graphs[i]? = some (some g))
    (grows : g.Grows h) (issued : ∀ b ∈ handles, b ∈ s.handles ∨ ∃ i, Issues s step i b) :
    Change s step { s with graphs := s.graphs.setIfInBounds i (some h), handles }
  | list {handles : Array BlockId}
    (issued : ∀ b ∈ handles, b ∈ s.handles ∨ ∃ i, Issues s step i b) :
    Change s step { s with handles }
  | detect {trace : Trace} {loops : List Loop}
    (issued : ∀ l ∈ loops, ∀ b ∈ l.blocks, ∃ i, Issues s step i b) :
    Change s step { s with trace, loopSets := s.loopSets.push loops }
  /-- a report takes a graph out of its slot -/
  | take {i : Nat} {g : Graph} {loops : List Loop} (name : String)
    (there : s.graphs[i]? = some (some g)) (known : loops ∈ s.loopSets) :
    Change s step { s with
      graphs := s.graphs.setIfInBounds i none, reports := s.reports.push ⟨name, g, loops⟩ }
  /-- a report takes a copy -/
  | clone {i : Nat} {g : Graph} {loops : List Loop} (name : String)
    (there : s.graphs[i]? = some (some g)) (known : loops ∈ s.loopSets) :
    Change s step { s with
      nextTag := s.nextTag + 1, reports := s.reports.push ⟨name, g.copy s.nextTag, loops⟩ }

theorem Change.refl (s : Session) (step : Step) : Change s step s := .idle s.trace s.tracers

section Refusals
variable {s : Session} {i j : Nat}

/-! A step that names something that is not there is refused and leaves the session as it is. -/

theorem withGraph_cases {motive : Result → Prop} {next : Graph → Result}
    (refused : motive (s.refuse (.missing .graph)))
    (found : ∀ g, s.graphs[i]? = some (some g) → motive (next g)) : motive (s.withGraph i next) := by
  unfold withGraph
  split
  next g there => exact found g there
  · exact refused

theorem withHandle_cases {motive : Result → Prop} {next : BlockId → Result}
    (refused : motive (s.refuse (.missing .handle)))
    (found : ∀ b, s.handles[i]? = some b → motive (next b)) : motive (s.withHandle i next) := by
  unfold withHandle
  split
  next b there => exact found b there
  · exact refused

theorem withLoops_cases {motive : Result → Prop} {next : List Loop → Result}
    (refused : motive (s.refuse (.missing .loopSet)))
    (found : ∀ loops, s.loopSets[i]? = some loops → motive (next loops)) :
    motive (s.withLoops i next) := by
  unfold withLoops
  split
  next loops there => exact found loops there
  · exact refused

theorem withLoop_cases {motive : Result → Prop} {next : Loop → Result}
    (refused : ∀ table, motive (s.refuse (.missing table))) (found : ∀ l, motive (next l)) :
    motive (s.withLoop i j next) := by
  refine withLoops_cases (refused .loopSet) fun loops _ => ?_
  split
  next l _ => exact found l
  · exact refused .loop

theorem withTracer_cases {motive : Result → Prop} {next : Tracer → Result}
    (refused : motive (s.refuse (.missing .tracer)))
    (found : ∀ t, s.tracers[i]? = some (some t) → motive (next t)) :
    motive (s.withTracer i next) := by
  unfold withTracer
  split
  next t there => exact found t there
  · exact refused

variable {motive : Session → Prop}

theorem withGraph_fst {next : Graph → Result} (refused : motive s)
    (found : ∀ g, s.graphs[i]? = some (some g) → motive (next g).1) :
    motive (s.withGraph i next).1 := withGraph_cases (motive := fun r => motive r.1) refused found

theorem withHandle_fst {next : BlockId → Result} (refused : motive s)
    (found : ∀ b, s.handles[i]? = some b → motive (next b).1) :
    motive (s.withHandle i next).1 :=
  withHandle_cases (motive := fun r => motive r.1) refused found

theorem withLoops_fst {next : List Loop → Result} (refused : motive s)
    (found : ∀ loops ∈ s.loopSets, motive (next loops).1) : motive (s.withLoops i next).1 :=
  withLoops_cases (motive := fun r => motive r.1) refused fun loops there =>
    found loops (Array.mem_of_getElem? there)

theorem withLoop_fst {next : Loop → Result} (refused : motive s)
    (found : ∀ l, motive (next l).1) : motive (s.withLoop i j next).1 :=
  withLoop_cases (motive := fun r => motive r.1) (fun _ => refused) found

theorem withTracer_fst {next : Tracer → Result} (refused : motive s)
    (found : ∀ t, motive (next t).1) : motive (s.withTracer i next).1 :=
  withTracer_cases (motive := fun r => motive r.1) refused fun t _ => found t

theorem answerWith_fst {α : Type} (s : Session) (f : α → Answer) (made : Except Fault α) :
    (s.answerWith f made).1 = s := by
  cases made <;> rfl

theorem detect_fst {g : Graph} {next : Session → List Loop → Result}
    (refused : ∀ trace, motive { s with trace })
    (found : ∀ trace loops, g.loops = .ok loops → motive (next { s with trace } loops).1) :
    motive (s.detect g next).1 := by
  have shown := s.trace.detect_snd g
  unfold detect
  match s.trace.detect g, shown with
  | (trace, .error fault), _ => exact refused trace
  | (trace, .ok loops), shown => exact found trace loops shown.symm

end Refusals

theorem grows_addEdges (s : Session) (g : Graph) (pairs : List (Nat × Nat)) :
    g.Grows (s.addEdges g pairs).1 := by
  induction pairs generalizing g with
  | nil => exact .refl
  | cons pair rest ih =>
    unfold addEdges
    split
    next a b _ _ =>
      split
      · exact .refl
      next made =>
        obtain ⟨⟨ha, hb⟩, rfl⟩ := Graph.connect_eq_ok.mp made
        exact (Graph.Grows.link .refl ha hb).trans (ih _)
    · exact .refl

theorem grows_createBlocks (g : Graph) (stem : String) (count : Nat) :
    g.Grows (createBlocks g stem count) := by
  unfold createBlocks
  induction count with
  | zero => exact .refl
  | succ n ih =>
    rw [List.range_succ, List.foldl_append]
    exact .addBlock _ ih

section Changes
variable {s : Session} {step : Step}

theorem mem_addHandles {handles : List BlockId} {b : BlockId} :
    b ∈ (s.addHandles handles).handles ↔ b ∈ s.handles ∨ b ∈ handles := by
  show b ∈ s.handles ++ handles ↔ _
  rw [Array.mem_def, Array.toList_appendList, List.mem_append, ← Array.mem_def]

theorem change_answerWith {α : Type} (f : α → Answer) (made : Except Fault α) :
    Change s step (s.answerWith f made).1 := by
  rw [answerWith_fst]
  exact .refl s step

theorem change_insertEdges (s : Session) (step : Step) (i : Nat) (pairs : List (Nat × Nat)) :
    Change s step (s.insertEdges i pairs).1 := by
  refine withGraph_fst (.refl s step) fun g there => ?_
  -- the edges before one that is refused stay
  have grown := grows_addEdges s g pairs
  have change : Change s step (s.setGraph i (s.addEdges g pairs).1) :=
    .grow there grown fun b hb => .inl hb
  match s.addEdges g pairs, change with
  | (h, none), change => exact change
  | (h, some refused), change => exact change

theorem change_build (s : Session) (step : Step) (text : String) :
    Change s step (s.build text).1 := by
  unfold build
  split
  · exact .refl s step
  next d _ =>
    split
    · exact .spend
    next g made =>
      have copied := d.build_copy s.nextTag s.nextTag
      rw [made] at copied
      exact .create (Description.reachable_build made) (congrArg Graph.tag (Except.ok.inj copied))

theorem change_report {loopSet : Nat} {name : String} {g : Graph} {taken : Session → Session}
    (known : ∀ loops ∈ s.loopSets, Change s step
      { taken s with reports := (taken s).reports.push ⟨name, g, loops⟩ }) :
    Change s step (s.report loopSet name g taken).1 :=
  withLoops_fst (.refl s step) known

theorem perform_change (step : Step)
    (reachable : ∀ (i : Nat) (g : Graph), s.graphs[i]? = some (some g) → g.Reachable) :
    Change s step (s.perform step).1 := by
  have idle : Change s step s := .refl s step
  cases step with
  | create => exact .create (.empty _) rfl
  | copy i =>
    exact withGraph_fst idle fun g there => .create (.copy _ (reachable i g there)) rfl
  | build text => exact change_build s _ text
  | block i content =>
    refine withGraph_fst idle fun g there => .grow there (.addBlock content .refl) fun b hb => ?_
    rcases Array.mem_push.mp hb with hb | rfl
    · exact .inl hb
    · exact .inr ⟨i, .block there⟩
  | many i count stem =>
    refine withGraph_fst idle fun g there =>
      .grow there (grows_createBlocks g stem count) fun b hb => ?_
    rcases mem_addHandles.mp hb with hb | hb
    · exact .inl hb
    · obtain ⟨k, hk, rfl⟩ := List.mem_map.mp hb
      exact .inr ⟨i, .many there (List.mem_range.mp hk)⟩
  | blocks i =>
    refine withGraph_fst idle fun g there => .list fun b hb => ?_
    exact (mem_addHandles.mp hb).imp_right fun listed => ⟨i, .blocks there listed⟩
  | edge i source target => exact change_insertEdges s _ i _
  | tryEdge i source target =>
    refine withGraph_fst idle fun g there => withHandle_fst idle fun a _ =>
      withHandle_fst idle fun b _ => ?_
    split
    · exact idle
    next h made =>
      obtain ⟨⟨ha, hb⟩, rfl⟩ := Graph.connectChecked_eq_ok.mp made
      exact .grow there (.link .refl ha hb) fun b hb => .inl hb
  | edges i base pairs => exact change_insertEdges s _ i _
  | affine i base n count a b c d => exact change_insertEdges s _ i _
  | owns i handle => exact withGraph_fst idle fun g _ => withHandle_fst idle fun b _ => idle
  | successors i handle =>
    exact withGraph_fst idle fun g _ => withHandle_fst idle fun b _ => change_answerWith _ _
  | predecessors i handle =>
    exact withGraph_fst idle fun g _ => withHandle_fst idle fun b _ => change_answerWith _ _
  | content i handle =>
    exact withGraph_fst idle fun g _ => withHandle_fst idle fun b _ => change_answerWith _ _
  | pad i handle alignment width precision =>
    exact withGraph_fst idle fun g _ => withHandle_fst idle fun b _ => change_answerWith _ _
  | setEntry i handle =>
    refine withGraph_fst idle fun g there => withHandle_fst idle fun b _ => ?_
    split
    · exact idle
    next h made =>
      obtain ⟨hb, rfl⟩ := Graph.designate_eq_ok.mp made
      exact .grow there (.designate .refl hb) fun b hb => .inl hb
  | entry i =>
    refine withGraph_fst idle fun g there => ?_
    split
    · exact idle
    next b designated =>
      refine .list fun c hc => ?_
      rcases Array.mem_push.mp hc with hc | rfl
      · exact .inl hc
      · exact .inr ⟨i, .entry there designated⟩
  | size i => exact withGraph_fst idle fun g _ => idle
  | dump i => exact withGraph_fst idle fun g _ => idle
  | dot i => exact withGraph_fst idle fun g _ => idle
  | equal i j => exact withGraph_fst idle fun g _ => withGraph_fst idle fun h _ => idle
  | compare i j => exact withHandle_fst idle fun a _ => withHandle_fst idle fun b _ => idle
  | detect i =>
    refine withGraph_fst idle fun g there =>
      detect_fst (fun trace => .idle trace s.tracers) fun trace loops made => ?_
    exact .detect fun l hl b hb => ⟨i, .detect there made hl hb⟩
  | summary i =>
    refine withGraph_fst idle fun g _ =>
      detect_fst (fun trace => .idle trace s.tracers) fun trace loops _ => ?_
    rw [answerWith_fst]
    exact .idle trace s.tracers
  | loop loopSet index => exact withLoop_fst idle fun l => change_answerWith _ _
  | contains loopSet index handle =>
    exact withLoop_fst idle fun l => withHandle_fst idle fun b _ => idle
  | loopsEqual i j => exact withLoops_fst idle fun a _ => withLoops_fst idle fun b _ => idle
  | report i loopSet name =>
    exact withGraph_fst idle fun g there => change_report fun loops known =>
      .take name there known
  | reportClone i loopSet name =>
    exact withGraph_fst idle fun g there => change_report fun loops known =>
      .clone name there known
  | render first last format =>
    show Change s _ (s.render first last format).1
    unfold render
    split
    · split
      · exact idle
      · exact change_answerWith _ _
    · exact idle
  | openTracer title => exact .idle _ _
  | event tracer text => exact withTracer_fst idle fun t => .idle _ s.tracers
  | closeTracer tracer =>
    refine withTracer_fst idle fun t => ?_
    show Change s _ (answerWith _ _ _).1
    rw [answerWith_fst]
    exact .idle _ _

end Changes

end Session
end FlowLoops
