import FlowLoops.Analysis
import FlowLoops.Proofs.Description.Labels
import FlowLoops.Proofs.Loop.Detection
import FlowLoops.Proofs.Loop.Soundness
import FlowLoops.Proofs.Report.Agreement

/-! What comes of one input. It does not depend on the log, and on the tag that the graph draws only
in that tag. -/

namespace FlowLoops

def Report.copy (r : Report) (tag : Nat) : Report :=
  ⟨r.name, r.graph.copy tag, r.loops.map (Loop.map (r.graph.copy tag).counterpart)⟩

theorem Report.agrees_copy (r : Report) (tag : Nat) : r.Agrees (r.copy tag) := by
  refine ⟨rfl, rfl, rfl, ?_, ?_⟩
  · rw [Report.copy, Graph.copy, Option.map_map]
    rfl
  · exact (Loop.map_indices_counterpart (r.graph.copy tag) r.loops).symm

namespace Run
variable {access : Access} {path : Path} {run : Run} {r : Report}

theorem examine_snd (run : Run) (path : Path) (g : Graph) :
    (run.examine path g).2 =
      (g.loops.mapError .fault).map fun loops => ⟨path.display, g, loops⟩ := by
  simp only [examine, Trace.detect_snd]

theorem andThen_of_ok {α β : Type} {x : Run × Except Failure α} {a : α} (made : x.2 = .ok a)
    (f : Run → α → Run × Except Failure β) : andThen x f = f x.1 a := by
  obtain ⟨run, result⟩ := x
  obtain rfl : result = .ok a := made
  rfl

theorem andThen_of_error {α β : Type} {x : Run × Except Failure α} {e : Failure}
    (failed : x.2 = .error e) (f : Run → α → Run × Except Failure β) :
    andThen x f = (x.1, .error e) := by
  obtain ⟨run, result⟩ := x
  obtain rfl : result = .error e := failed
  rfl

def outcome (access : Access) (path : Path) (tag : Nat) : Except Failure Report :=
  match describe access path with
  | .error e => .error (.reported e)
  | .ok d =>
    match d.build tag with
    | .error e => .error (e.toFailure.within path.display)
    | .ok g => (g.loops.mapError .fault).map fun loops => ⟨path.display, g, loops⟩

theorem reportOn_snd (run : Run) (access : Access) (path : Path) :
    (run.reportOn access path).2 = outcome access path run.nextTag := by
  simp only [reportOn, load, outcome]
  cases describe access path with
  | error e => rfl
  | ok d =>
    cases hb : d.build run.nextTag with
    | error e => simp only [hb, Except.mapError, andThen]
    | ok g => simp only [hb, Except.mapError, andThen, examine_snd]

/-- An input fails under every tag and alike, or gives a report under every tag, up to the tag. -/
theorem outcome_cases (access : Access) (path : Path) :
    (∃ e, ∀ tag, outcome access path tag = .error (.reported e)) ∨
      ∃ r : Report, r.name = path.display ∧
        ∀ tag, outcome access path tag = .ok (r.copy tag) ∧ (r.copy tag).Owning := by
  unfold outcome
  cases describe access path with
  | error e => exact .inl ⟨e, fun _ => rfl⟩
  | ok d =>
    cases hb : d.build 0 with
    | error f =>
      cases f with
      | fault f => exact absurd hb (d.build_ne_fault 0 f)
      | violation v =>
        refine .inl ⟨v.toError.within path.display, fun tag => ?_⟩
        have built := d.build_copy 0 tag
        rw [hb] at built
        simp only [built]
        rfl
    | ok g =>
      have hg : g.Reachable := Description.reachable_build hb
      obtain ⟨way, found, -, detected⟩ := exists_forest hg
      refine .inr ⟨⟨path.display, g, found.map (loopAlong way)⟩, rfl, fun tag => ?_⟩
      have detected' := (Graph.sameShape_copy hg tag).loops hg (.copy tag hg) detected
      refine ⟨?_, owns_of_mem_loops (.copy tag hg) detected'⟩
      have built := d.build_copy 0 tag
      rw [hb] at built
      simp only [built, Except.map, detected', Except.mapError, Report.copy]

def Fails (access : Access) (path : Path) (e : AnalysisError) : Prop :=
  ∀ run : Run, (run.reportOn access path).2 = .error (.reported e)

def Succeeds (access : Access) (path : Path) : Prop :=
  ∀ run : Run, ∃ r, (run.reportOn access path).2 = .ok r

def ReportsOn (access : Access) (inputs : List Path) (reports : List Report) : Prop :=
  List.Forall₂ (fun path r => ∃ tag, outcome access path tag = .ok r) inputs reports

theorem fails_of_outcome {tag : Nat} {f : Failure} (failed : outcome access path tag = .error f) :
    ∃ e, f = .reported e ∧ Fails access path e := by
  rcases outcome_cases access path with ⟨e, always⟩ | ⟨r, -, always⟩
  · have same := failed.symm.trans (always tag)
    exact ⟨e, Except.error.inj same, fun run => (reportOn_snd run access path).trans (always _)⟩
  · rw [(always tag).1] at failed
    cases failed

theorem succeeds_of_outcome {tag : Nat} (made : outcome access path tag = .ok r) :
    Succeeds access path := by
  rcases outcome_cases access path with ⟨e, always⟩ | ⟨r, -, always⟩
  · rw [always tag] at made
    cases made
  · exact fun run => ⟨_, (reportOn_snd run access path).trans (always _).1⟩

theorem succeeds_or_fails (access : Access) (path : Path) :
    Succeeds access path ∨ ∃ e, Fails access path e := by
  cases made : outcome access path 0 with
  | error f =>
    obtain ⟨e, -, fails⟩ := fails_of_outcome made
    exact .inr ⟨e, fails⟩
  | ok r => exact .inl (succeeds_of_outcome made)

theorem Fails.not_succeeds {e : AnalysisError} (fails : Fails access path e) :
    ¬ Succeeds access path := by
  intro succeeds
  obtain ⟨r, made⟩ := succeeds (.start none true)
  rw [fails] at made
  cases made

theorem Fails.unique {e e' : AnalysisError} (first : Fails access path e)
    (second : Fails access path e') : e = e' := by
  have same := (first (.start none true)).symm.trans (second (.start none true))
  exact Failure.reported.inj (Except.error.inj same)

theorem outcomes_agree {s t : Nat} {r k : Report} (made : outcome access path s = .ok r)
    (made' : outcome access path t = .ok k) :
    r.name = path.display ∧ r.Agrees k ∧ r.Owning ∧ k.Owning := by
  rcases outcome_cases access path with ⟨e, always⟩ | ⟨base, name, always⟩
  · rw [always s] at made
    cases made
  · obtain ⟨at_s, owning⟩ := always s
    obtain ⟨at_t, owning'⟩ := always t
    obtain rfl := Except.ok.inj (made.symm.trans at_s)
    obtain rfl := Except.ok.inj (made'.symm.trans at_t)
    exact ⟨name, (base.agrees_copy s).symm.trans (base.agrees_copy t), owning, owning'⟩

theorem ReportsOn.agree {inputs : List Path} {rs ks : List Report}
    (first : ReportsOn access inputs rs) (second : ReportsOn access inputs ks) :
    rs.map (·.name) = inputs.map (·.display) ∧
      List.Forall₂ (fun r k => r.Agrees k ∧ r.Owning ∧ k.Owning) rs ks := by
  induction first generalizing ks with
  | nil =>
    cases second
    exact ⟨rfl, .nil⟩
  | cons made _ ih =>
    cases second with
    | cons made' others =>
      obtain ⟨s, made⟩ := made
      obtain ⟨t, made'⟩ := made'
      obtain ⟨name, agree⟩ := outcomes_agree made made'
      obtain ⟨names, rest⟩ := ih others
      exact ⟨by rw [List.map_cons, List.map_cons, name, names], .cons agree rest⟩

theorem ReportsOn.succeeds {inputs : List Path} {rs : List Report}
    (reports : ReportsOn access inputs rs) : ∀ p ∈ inputs, Succeeds access p := by
  induction reports with
  | nil => exact fun p hp => absurd hp List.not_mem_nil
  | cons made _ ih =>
    obtain ⟨tag, made⟩ := made
    exact List.forall_mem_cons.mpr ⟨succeeds_of_outcome made, ih⟩

theorem ReportsOn.owning {inputs : List Path} {rs : List Report}
    (reports : ReportsOn access inputs rs) : ∀ r ∈ rs, r.Owning := by
  induction reports with
  | nil => exact fun r hr => absurd hr List.not_mem_nil
  | cons made _ ih =>
    obtain ⟨tag, made⟩ := made
    exact List.forall_mem_cons.mpr ⟨(outcomes_agree made made).2.2.1, ih⟩

theorem analyzeInOrder_snd (access : Access) (run : Run) (inputs : List Path) :
    (∃ rs, (analyzeInOrder access run inputs).2 = .ok rs ∧ ReportsOn access inputs rs) ∨
      ∃ front path rest e, inputs = front ++ path :: rest ∧ (∀ p ∈ front, Succeeds access p) ∧
        Fails access path e ∧ (analyzeInOrder access run inputs).2 = .error (.reported e) := by
  induction inputs generalizing run with
  | nil => exact .inl ⟨[], rfl, .nil⟩
  | cons path rest ih =>
    have shown := reportOn_snd run access path
    rw [analyzeInOrder]
    match run.reportOn access path, shown with
    | (next, .error f), shown =>
      obtain ⟨e, rfl, fails⟩ := fails_of_outcome shown.symm
      exact .inr ⟨[], path, rest, e, rfl, fun p hp => absurd hp List.not_mem_nil, fails, rfl⟩
    | (next, .ok r), shown =>
      have succeeds := succeeds_of_outcome shown.symm
      rcases ih next with ⟨rs, made, reports⟩ | ⟨front, p, back, e, rfl, before, fails, made⟩
      · refine .inl ⟨r :: rs, ?_, .cons ⟨_, shown.symm⟩ reports⟩
        exact congrArg Prod.snd (andThen_of_ok made _)
      · refine .inr ⟨path :: front, p, back, e, rfl, ?_, fails, ?_⟩
        · exact List.forall_mem_cons.mpr ⟨succeeds, before⟩
        · exact congrArg Prod.snd (andThen_of_error made _)

end Run
end FlowLoops
