import FlowLoops.Proofs.Session.Change

/-! Which steps of a session bear on its tracers. All but those that open or close one leave the
tracers as they are, record lines at most, and meet no fault of their nesting. -/

namespace FlowLoops

def Spares {α : Type} (made : Except Fault α) : Prop :=
  ∀ found expected, made ≠ .error (.traceDepth found expected)

section Outcomes
variable {α β : Type} {made : Except Fault α}

theorem spares_ok (v : α) : Spares (.ok v) := by
  intro _ _ h
  cases h

theorem spares_outOfRange (index size : Nat) : Spares (α := α) (.error (.outOfRange index size)) := by
  intro _ _ h
  cases h

theorem spares_foreignBlock (b : BlockId) : Spares (α := α) (.error (.foreignBlock b)) := by
  intro _ _ h
  cases h

theorem Spares.error {fault : Fault} (spares : Spares (.error fault : Except Fault α)) :
    Spares (.error fault : Except Fault β) := by
  rintro found expected h
  cases h
  exact spares found expected rfl

theorem Spares.map (spares : Spares made) (f : α → β) : Spares (made.map f) := by
  cases made with
  | error fault => exact spares.error
  | ok v => exact spares_ok (f v)

theorem Spares.bind {next : α → Except Fault β} (spares : Spares made)
    (goes : ∀ v, Spares (next v)) : Spares (made >>= next) := by
  cases made with
  | error fault => exact spares.error
  | ok v => exact goes v

theorem spares_mapM {f : α → Except Fault β} (each : ∀ a, Spares (f a)) (l : List α) :
    Spares (l.mapM f) := by
  induction l with
  | nil => exact spares_ok []
  | cons a rest ih =>
    rw [List.mapM_cons]
    exact (each a).bind fun b => ih.bind fun bs => spares_ok (b :: bs)

end Outcomes

namespace Graph

theorem spares_block (g : Graph) (b : BlockId) : Spares (g.block b) := by
  unfold block
  split
  · exact spares_ok _
  · exact spares_foreignBlock b

theorem spares_content (g : Graph) (b : BlockId) : Spares (g.content b) := (g.spares_block b).map _

theorem spares_successors (g : Graph) (b : BlockId) : Spares (g.successors b) :=
  (g.spares_block b).map _

theorem spares_predecessors (g : Graph) (b : BlockId) : Spares (g.predecessors b) :=
  (g.spares_block b).map _

theorem spares_connect (g : Graph) (source target : BlockId) : Spares (g.connect source target) := by
  intro found expected refused
  obtain ⟨foreign, same⟩ := connect_eq_error refused
  cases same

theorem spares_designate (g : Graph) (b : BlockId) : Spares (g.designate b) := by
  unfold designate
  split
  · exact spares_ok _
  · exact spares_foreignBlock b

end Graph

namespace Search
variable (g : Graph) (s : Search)

theorem spares_descend (b : BlockId) : Spares (s.descend g b) := by
  unfold descend
  have succeeds := g.spares_successors b
  split
  next made => exact (made ▸ succeeds).error
  · split
    · exact spares_ok _
    · exact spares_outOfRange _ _

theorem spares_retreat : Spares s.retreat := by
  unfold retreat
  split
  · exact spares_ok s
  · split
    · exact spares_ok _
    · exact spares_outOfRange _ _

theorem spares_follow (current next : BlockId) : Spares (s.follow g current next) := by
  unfold follow
  split
  · exact spares_outOfRange _ _
  · split
    · exact spares_ok _
    · exact spares_outOfRange _ _
  · exact s.spares_descend g next
  · exact spares_ok s

theorem spares_step : Spares (s.step g) := by
  unfold step
  split
  · exact spares_ok s
  · exact s.spares_retreat
  · exact spares_follow g _ _ _

theorem spares_exhaust : Spares (s.exhaust g) := by
  induction s using exhaust.induct g with
  | case1 s idle =>
    rw [exhaust_of_idle idle]
    exact spares_ok s
  | case2 s busy fault made =>
    have steps := s.spares_step g
    rw [exhaust, dif_neg busy]
    split
    next failed => exact (failed ▸ steps).error
    next found =>
      rw [made] at found
      cases found
  | case3 s busy next made ih =>
    rw [exhaust_of_step busy made]
    exact ih

theorem spares_explore (root : BlockId) : Spares (s.explore g root) := by
  unfold explore
  have descends := s.spares_descend g root
  split
  next made => exact (made ▸ descends).error
  · exact spares_exhaust g _

theorem spares_exploreAll (roots : List BlockId) : Spares (s.exploreAll g roots) := by
  induction roots generalizing s with
  | nil => exact spares_ok s
  | cons root rest ih =>
    have explores := s.spares_explore g root
    unfold exploreAll
    split
    · exact spares_outOfRange _ _
    · split
      next made => exact (made ▸ explores).error
      · exact ih _
    · exact ih s

theorem spares_loops : Spares g.loops := (spares_exploreAll g _ g.handles).map _

end Search

namespace Report

theorem spares_sections {body : Report → Except Fault String} (each : ∀ r, Spares (body r))
    (reports : List Report) : Spares (sections reports body) := by
  refine Spares.bind (spares_mapM (fun r => ?_) reports) fun bodies => spares_ok _
  exact (each r).bind fun text => spares_ok _

theorem spares_render (reports : List Report) (f : Format) : Spares (render reports f) := by
  have texts (r : Report) : Spares r.text := by
    have loops := spares_mapM (fun l : Loop => spares_mapM r.graph.spares_content l.blocks) r.loops
    exact loops.bind fun _ => spares_ok _
  have blocks (r : Report) (b : BlockId) : Spares (r.blockValue b) :=
    (r.graph.spares_content b).bind fun _ => spares_ok _
  have values (r : Report) : Spares r.toValue := by
    have loops := spares_mapM (fun l : Loop => spares_mapM (blocks r) l.blocks) r.loops
    exact loops.bind fun _ => spares_ok _
  cases f with
  | text => exact spares_sections texts reports
  | json => exact (spares_mapM values reports).bind fun _ => spares_ok _
  | dot => exact spares_sections (fun r => spares_ok r.graph.dot) reports

end Report

namespace Session

theorem spares_ends (l : Loop) : Spares (ends l) := by
  unfold ends
  split
  · exact spares_ok _
  · exact spares_outOfRange _ _

structure Calm (s s' : Session) : Prop where
  tracers : s'.tracers = s.tracers
  trace : ∃ lines, s'.trace = s.trace.emitAll lines

structure Quiet (s : Session) (r : Result) : Prop where
  calm : Calm s r.1
  spares : ∀ found expected, r.2 ≠ .error (.fault (.traceDepth found expected))

section Results
variable {s s' : Session} {graph handle : Nat}

theorem Calm.refl (s : Session) : Calm s s := ⟨rfl, [], rfl⟩

theorem Calm.of_eq (tracers : s'.tracers = s.tracers) (trace : s'.trace = s.trace) : Calm s s' :=
  ⟨tracers, [], trace⟩

theorem Calm.answered {r : Result} {a : Answer} (calm : Calm s r.1) (ok : r.2 = .ok a) :
    Quiet s r := by
  refine ⟨calm, fun _ _ h => ?_⟩
  rw [ok] at h
  cases h

theorem quiet_of_eq {r : Result} {a : Answer} (tracers : r.1.tracers = s.tracers)
    (trace : r.1.trace = s.trace) (ok : r.2 = .ok a) : Quiet s r :=
  (Calm.of_eq tracers trace).answered ok

theorem Calm.refuse (calm : Calm s s') {r : Refusal}
    (spares : ∀ found expected, r ≠ .fault (.traceDepth found expected)) : Quiet s (s'.refuse r) :=
  ⟨calm, fun found expected h => spares found expected (Except.error.inj h)⟩

theorem Calm.missing (calm : Calm s s') (table : Table) : Quiet s (s'.refuse (.missing table)) :=
  calm.refuse fun _ _ h => Refusal.noConfusion h

theorem Calm.answerWith {α : Type} (calm : Calm s s') (f : α → Answer) {made : Except Fault α}
    (spares : Spares made) : Quiet s (s'.answerWith f made) := by
  cases made with
  | error fault =>
    refine calm.refuse fun found expected h => ?_
    exact spares found expected (congrArg Except.error (Refusal.fault.inj h))
  | ok v => exact calm.answered rfl

theorem quiet_withGraph {next : Graph → Result} (goes : ∀ g, Quiet s (next g)) :
    Quiet s (s.withGraph graph next) :=
  withGraph_cases ((Calm.refl s).missing .graph) fun g _ => goes g

theorem quiet_withHandle {next : BlockId → Result} (goes : ∀ b, Quiet s (next b)) :
    Quiet s (s.withHandle handle next) :=
  withHandle_cases ((Calm.refl s).missing .handle) fun b _ => goes b

theorem quiet_withLoops {loopSet : Nat} {next : List Loop → Result}
    (goes : ∀ loops, Quiet s (next loops)) : Quiet s (s.withLoops loopSet next) :=
  withLoops_cases ((Calm.refl s).missing .loopSet) fun loops _ => goes loops

theorem quiet_withLoop {loopSet index : Nat} {next : Loop → Result}
    (goes : ∀ l, Quiet s (next l)) : Quiet s (s.withLoop loopSet index next) :=
  withLoop_cases (Calm.refl s).missing goes

theorem quiet_withTracer {k : Nat} {next : Tracer → Result}
    (goes : ∀ t, s.tracers[k]? = some (some t) → Quiet s (next t)) :
    Quiet s (s.withTracer k next) :=
  withTracer_cases ((Calm.refl s).missing .tracer) goes

theorem addEdges_ne_traceDepth (s : Session) (g : Graph) (pairs : List (Nat × Nat))
    (found expected : Nat) :
    (s.addEdges g pairs).2 ≠ some (.fault (.traceDepth found expected)) := by
  induction pairs generalizing g with
  | nil =>
    intro h
    cases h
  | cons pair rest ih =>
    unfold addEdges
    split
    next a b _ _ =>
      split
      next fault refused =>
        intro h
        obtain rfl := Refusal.fault.inj (Option.some.inj h)
        exact g.spares_connect a b found expected refused
      · exact ih _
    · intro h
      cases h

theorem quiet_insertEdges (s : Session) (graph : Nat) (pairs : List (Nat × Nat)) :
    Quiet s (s.insertEdges graph pairs) := by
  refine quiet_withGraph fun g => ?_
  have spares := addEdges_ne_traceDepth s g pairs
  match s.addEdges g pairs, spares with
  | (h, none), _ => exact quiet_of_eq rfl rfl rfl
  | (h, some refused), spares =>
    have calm : Calm s (s.setGraph graph h) := .of_eq rfl rfl
    exact calm.refuse fun found expected same => spares found expected (congrArg some same)

theorem toRefusal_ne_traceDepth {failure : BuildFailure} (violated : ∀ f, failure ≠ .fault f)
    (found expected : Nat) : failure.toFailure.toRefusal ≠ .fault (.traceDepth found expected) := by
  intro h
  cases failure with
  | violation v => cases h
  | fault f => exact violated f rfl

theorem quiet_build (s : Session) (text : String) : Quiet s (s.build text) := by
  unfold build
  split
  · exact (Calm.refl s).refuse fun _ _ h => Refusal.noConfusion h
  next d _ =>
    split
    next failure made =>
      have calm : Calm s { s with nextTag := s.nextTag + 1 } := .of_eq rfl rfl
      refine calm.refuse (toRefusal_ne_traceDepth fun f h => ?_)
      exact d.build_ne_fault s.nextTag f (made.trans (congrArg Except.error h))
    · exact quiet_of_eq rfl rfl rfl

theorem quiet_report {loopSet : Nat} {name : String} {g : Graph} {taken : Session → Session}
    (tracers : (taken s).tracers = s.tracers) (trace : (taken s).trace = s.trace) :
    Quiet s (s.report loopSet name g taken) :=
  quiet_withLoops fun _ => quiet_of_eq tracers trace rfl

theorem quiet_render (s : Session) (first last : Nat) (format : String) :
    Quiet s (s.render first last format) := by
  unfold render
  split
  · split
    · exact (Calm.refl s).refuse fun _ _ h => Refusal.noConfusion h
    · exact (Calm.refl s).answerWith _ (Report.spares_render _ _)
  · exact (Calm.refl s).missing .report

theorem quiet_detect (traced : s.trace.silent = false) {g : Graph}
    {next : Session → List Loop → Result}
    (goes : ∀ s', Calm s s' → ∀ loops, Quiet s (next s' loops)) : Quiet s (s.detect g next) := by
  have calm : Calm s { s with trace := (s.trace.detect g).1 } :=
    ⟨rfl, _, Trace.detect_fst traced g⟩
  have spares : Spares (s.trace.detect g).2 := by
    rw [Trace.detect_snd]
    exact Search.spares_loops g
  unfold detect
  match s.trace.detect g, calm, spares with
  | (trace, .error fault), calm, spares =>
    exact calm.refuse fun found expected h =>
      spares found expected (congrArg Except.error (Refusal.fault.inj h))
  | (trace, .ok loops), calm, _ => exact goes _ calm loops

end Results

theorem quiet_perform {s : Session} {step : Step} (traced : s.trace.silent = false)
    (opens : ∀ title, step ≠ .openTracer title)
    (closes : ∀ k, step = .closeTracer k → s.tracers[k]?.join = none) :
    Quiet s (s.perform step) := by
  have calm : Calm s s := .refl s
  cases step with
  | create => exact quiet_of_eq rfl rfl rfl
  | copy i => exact quiet_withGraph fun g => quiet_of_eq rfl rfl rfl
  | build text => exact quiet_build s text
  | block i content => exact quiet_withGraph fun g => quiet_of_eq rfl rfl rfl
  | many i count stem => exact quiet_withGraph fun g => quiet_of_eq rfl rfl rfl
  | blocks i => exact quiet_withGraph fun g => quiet_of_eq rfl rfl rfl
  | edge i source target => exact quiet_insertEdges s i [(source, target)]
  | tryEdge i source target =>
    refine quiet_withGraph fun g => quiet_withHandle fun a => quiet_withHandle fun b => ?_
    split
    next failure made =>
      refine calm.refuse (toRefusal_ne_traceDepth fun f h => ?_)
      exact g.connectChecked_ne_fault a b f (made.trans (congrArg Except.error h))
    · exact quiet_of_eq rfl rfl rfl
  | edges i base pairs => exact quiet_insertEdges s i _
  | affine i base n count a b c d => exact quiet_insertEdges s i _
  | owns i handle =>
    exact quiet_withGraph fun g => quiet_withHandle fun b => calm.answered rfl
  | successors i handle =>
    exact quiet_withGraph fun g => quiet_withHandle fun b =>
      calm.answerWith _ (g.spares_successors b)
  | predecessors i handle =>
    exact quiet_withGraph fun g => quiet_withHandle fun b =>
      calm.answerWith _ (g.spares_predecessors b)
  | content i handle =>
    exact quiet_withGraph fun g => quiet_withHandle fun b =>
      calm.answerWith _ (g.spares_content b)
  | pad i handle alignment width precision =>
    exact quiet_withGraph fun g => quiet_withHandle fun b =>
      calm.answerWith _ (g.spares_content b)
  | setEntry i handle =>
    refine quiet_withGraph fun g => quiet_withHandle fun b => ?_
    have designates := g.spares_designate b
    split
    next fault failed =>
      exact calm.refuse fun found expected h =>
        designates found expected (failed.trans (congrArg Except.error (Refusal.fault.inj h)))
    · exact quiet_of_eq rfl rfl rfl
  | entry i =>
    refine quiet_withGraph fun g => ?_
    split
    · exact calm.answered rfl
    · exact quiet_of_eq rfl rfl rfl
  | size i => exact quiet_withGraph fun g => calm.answered rfl
  | dump i => exact quiet_withGraph fun g => calm.answered rfl
  | dot i => exact quiet_withGraph fun g => calm.answered rfl
  | equal i j => exact quiet_withGraph fun g => quiet_withGraph fun h => calm.answered rfl
  | compare i j => exact quiet_withHandle fun a => quiet_withHandle fun b => calm.answered rfl
  | detect i =>
    refine quiet_withGraph fun g => quiet_detect traced fun s' calm loops => ?_
    exact Calm.answered ⟨calm.tracers, calm.trace⟩ rfl
  | summary i =>
    refine quiet_withGraph fun g => quiet_detect traced fun s' calm loops => ?_
    apply calm.answerWith
    exact spares_mapM (fun l => (spares_ends l).bind fun _ => spares_ok _) loops
  | loop loopSet index => exact quiet_withLoop fun l => calm.answerWith _ (spares_ends l)
  | contains loopSet index handle =>
    exact quiet_withLoop fun l => quiet_withHandle fun b => calm.answered rfl
  | loopsEqual i j => exact quiet_withLoops fun a => quiet_withLoops fun b => calm.answered rfl
  | report i loopSet name =>
    exact quiet_withGraph fun g => quiet_report rfl rfl
  | reportClone i loopSet name =>
    exact quiet_withGraph fun g => quiet_report rfl rfl
  | render first last format => exact quiet_render s first last format
  | openTracer title => exact absurd rfl (opens title)
  | event k text =>
    exact quiet_withTracer fun t _ => Calm.answered ⟨rfl, s.trace.note_lines t text⟩ rfl
  | closeTracer k =>
    have absent := closes k rfl
    refine quiet_withTracer fun t there => ?_
    rw [there] at absent
    cases absent

/-- What a step does with the tracers, and what comes of it. -/
inductive Tracing (s : Session) : Step → Result → Prop
  | quiet {step : Step} {r : Result} (quiet : Quiet s r)
    (closes : ∀ k, step = .closeTracer k → s.tracers[k]?.join = none) : Tracing s step r
  | opens (title : String) : Tracing s (.openTracer title) ({ s with
      trace := (s.trace.emitAll [Trace.enterLine s.trace.depth title]).atDepth (s.trace.depth + 1)
      tracers := s.tracers.push (some ⟨title, some s.trace.depth⟩) }.answer
        (.newTracer s.tracers.size))
  | closes {k : Nat} {t : Tracer} (there : s.tracers[k]? = some (some t)) :
    Tracing s (.closeTracer k) ({ s with
      trace := (s.trace.leave t).1, tracers := s.tracers.setIfInBounds k none }.answerWith
        (fun _ => .nothing) (s.trace.leave t).2)

theorem tracing_perform {s : Session} (traced : s.trace.silent = false) (step : Step) :
    Tracing s step (s.perform step) := by
  by_cases opens : ∃ title, step = .openTracer title
  · obtain ⟨title, rfl⟩ := opens
    have entered := @Trace.enter_traced s.trace title traced
    rw [perform, entered]
    exact .opens title
  · by_cases closes : ∃ k t, step = .closeTracer k ∧ s.tracers[k]? = some (some t)
    · obtain ⟨k, t, rfl, there⟩ := closes
      rw [perform, withTracer, there]
      exact .closes there
    · have absent (k : Nat) (hk : step = .closeTracer k) : s.tracers[k]?.join = none := by
        rw [Option.eq_none_iff_forall_ne_some]
        intro t there
        exact closes ⟨k, t, hk, Option.join_eq_some_iff.mp there⟩
      exact .quiet (quiet_perform traced (fun title h => opens ⟨title, h⟩) absent) absent

end Session
end FlowLoops
