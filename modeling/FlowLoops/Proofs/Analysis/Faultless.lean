import FlowLoops.Proofs.Analysis.Schedule
import FlowLoops.Proofs.Graph.Growth

/-! Analyses meet no fault, whatever their inputs hold and in whatever order they take their turns.
What they give can be rendered, and goes on to be while the graphs of the reports grow. -/

namespace FlowLoops
open Relation

namespace Report

structure Grows (r k : Report) : Prop where
  name : k.name = r.name
  graph : r.graph.Grows k.graph
  loops : k.loops = r.loops

theorem Owning.grows {r k : Report} (owning : r.Owning) (grows : r.Grows k) : k.Owning := by
  intro l hl b hb
  rw [grows.loops] at hl
  exact grows.graph.owns (owning l hl b hb)

theorem owning_of_forall₂ {rs ks : List Report} (owning : ∀ r ∈ rs, r.Owning)
    (grown : List.Forall₂ Grows rs ks) : ∀ k ∈ ks, k.Owning := by
  induction grown with
  | nil => exact fun k hk => absurd hk List.not_mem_nil
  | cons first _ ih =>
    obtain ⟨here, others⟩ := List.forall_mem_cons.mp owning
    exact List.forall_mem_cons.mpr ⟨here.grows first, ih others⟩

end Report

namespace Run
variable {access : Access} {path : Path} {inputs : List Path} {run : Run}

theorem outcome_eq_ok {tag : Nat} {r : Report} (made : outcome access path tag = .ok r) :
    r.graph.Reachable ∧ r.graph.loops = .ok r.loops := by
  unfold outcome at made
  split at made
  · cases made
  · split at made
    · cases made
    next d _ g built =>
      obtain ⟨loops, detected, rfl⟩ := exists_of_map_eq_ok made
      refine ⟨Description.reachable_build built, ?_⟩
      cases hl : g.loops with
      | error f => rw [hl] at detected; cases detected
      | ok found =>
        rw [hl] at detected
        exact congrArg Except.ok (Except.ok.inj detected)

theorem ReportsOn.exists_ends {rs : List Report} (reports : ReportsOn access inputs rs) :
    ∀ r ∈ rs, ∀ l ∈ r.loops, ∃ ends, Session.ends l = .ok ends := by
  induction reports with
  | nil => exact fun r hr => absurd hr List.not_mem_nil
  | cons made _ ih =>
    obtain ⟨tag, made⟩ := made
    obtain ⟨reachable, detected⟩ := outcome_eq_ok made
    refine List.forall_mem_cons.mpr ⟨fun l hl => ?_, ih⟩
    obtain ⟨header, rest, latch, round⟩ := isRound_of_mem_loops reachable detected hl
    exact ⟨_, round.ends_eq⟩

theorem Pool.Due.not_mem_fault {p : Pool} (due : p.Due access inputs) (path : Path) (f : Fault) :
    ⟨path, .ended (.error (.fault f))⟩ ∉ p.tasks := by
  intro listed
  rcases due.tasks _ listed with _ | _ | ⟨tag, failed⟩
  obtain ⟨e, fault, -⟩ := fails_of_outcome failed
  cases fault

theorem settled_analyze (run : Run) (access : Access) (inputs : List Path) (parallel : Bool) :
    Settled access inputs (run.analyze access inputs parallel).2 := by
  cases parallel with
  | false => exact settled_sequential run access inputs
  | true =>
    obtain ⟨p, steps, collects⟩ := sideBySide_analyze access run inputs
    exact collects.settled (Pool.due_of_steps steps)

/-- Whatever the inputs hold, and in sequence as well as in any order of turns: no analysis meets a
fault, and the result is an error to report or reports that every format renders, the graphs of the
reports having grown or not. -/
theorem analysis_meets_no_fault (access : Access) (inputs : List Path) (run : Run) :
    (∀ p, ReflTransGen (Pool.Step access) (.start run inputs) p →
      ∀ path f, ⟨path, .ended (.error (.fault f))⟩ ∉ p.tasks) ∧
    ∀ result, (∃ parallel, result = (run.analyze access inputs parallel).2) ∨
        SideBySide access run inputs result →
      (∃ e, result = .error (.reported e)) ∨
        ∃ reports, result = .ok reports ∧
          (∀ r ∈ reports, ∀ l ∈ r.loops, ∃ ends, Session.ends l = .ok ends) ∧
          (∀ f, ∃ s, Report.render reports f = .ok s) ∧
          ∀ later, List.Forall₂ Report.Grows reports later →
            ∀ f, ∃ s, Report.render later f = .ok s := by
  refine ⟨fun p steps => (Pool.due_of_steps steps).not_mem_fault, fun result given => ?_⟩
  have settled : Settled access inputs result := by
    rcases given with ⟨parallel, rfl⟩ | ⟨p, steps, collects⟩
    · exact settled_analyze run access inputs parallel
    · exact collects.settled (Pool.due_of_steps steps)
  cases settled with
  | failure _ _ => exact .inl ⟨_, rfl⟩
  | @reports rs each =>
    refine .inr ⟨rs, rfl, each.exists_ends, Report.exists_render each.owning, ?_⟩
    exact fun later grown => Report.exists_render (Report.owning_of_forall₂ each.owning grown)

theorem renders_with_new_entry :
    ∃ reports, ((start none true).analyze sameFile [.ofString "a", .ofString "b"] false).2 =
        .ok reports ∧ reports.length = 2 ∧
      ∃ s, Report.render (reports.map fun r =>
        let (g, b) := r.graph.issueBlock "c"
        { r with graph := { g.link b.index b.index with entry := some b } }) .json = .ok s := by
  have two : ((start none true).analyze sameFile [.ofString "a", .ofString "b"] false).2.map
      List.length = .ok 2 := by
    decide +kernel
  obtain ⟨reports, made, length⟩ := exists_of_map_eq_ok two
  refine ⟨reports, made, length, ?_⟩
  rcases (analysis_meets_no_fault sameFile [.ofString "a", .ofString "b"] (start none true)).2 _
    (.inl ⟨false, rfl⟩) with ⟨e, failed⟩ | ⟨reports', made', -, -, renders⟩
  · rw [made] at failed
    cases failed
  · obtain rfl := Except.ok.inj (made.symm.trans made')
    refine renders _ ?_ .json
    rw [List.forall₂_map_right_iff, List.forall₂_same]
    intro r _
    have owned := Graph.owns_issueBlock r.graph "c"
    exact ⟨rfl, .designate (.link (.addBlock "c" .refl) owned owned) (owned.link _ _), rfl⟩

end Run
end FlowLoops
