import FlowLoops.Proofs.Session.EdgeCalls

/-! Checked calls in the place of asserting ones. Whichever calls of a run are replaced, the session
goes through the same states, and only the refusals of the replaced calls read differently. -/

namespace FlowLoops
namespace Session
variable {s t : Session} {steps : List Step} {chosen : Nat → Bool} {n : Nat}

def checked : Step → Step
  | .edge i x y => .tryEdge i x y
  | step => step

def replace (chosen : Nat → Bool) (steps : List Step) : List Step :=
  steps.mapIdx fun n step => if chosen n then checked step else step

def answers (s : Session) : List Step → List (Except Refusal Answer)
  | [] => []
  | step :: rest => (s.perform step).2 :: (s.perform step).1.answers rest

theorem perform_tryEdge_fst (s : Session) (i x y : Nat) :
    (s.perform (.tryEdge i x y)).1 = (s.perform (.edge i x y)).1 := by
  cases s.attempt i x y with
  | accepted there source target owned edge tryEdge => rw [tryEdge]
  | refused there source target blamed edge tryEdge =>
    rw [tryEdge, edge]
    rfl
  | missing table edge tryEdge => rw [tryEdge, edge]

theorem perform_checked_fst (s : Session) (step : Step) :
    (s.perform (checked step)).1 = (s.perform step).1 := by
  cases step with
  | edge i x y => exact s.perform_tryEdge_fst i x y
  | _ => rfl

theorem replace_cons (chosen : Nat → Bool) (step : Step) (rest : List Step) :
    replace chosen (step :: rest) =
      (if chosen 0 then checked step else step) :: replace (fun n => chosen (n + 1)) rest :=
  List.mapIdx_cons

theorem getElem?_replace (chosen : Nat → Bool) (steps : List Step) (n : Nat) :
    (replace chosen steps)[n]? =
      steps[n]?.map fun step => if chosen n then checked step else step :=
  List.getElem?_mapIdx

theorem run_take_replace (s : Session) (chosen : Nat → Bool) (steps : List Step) (n : Nat) :
    s.run ((replace chosen steps).take n) = s.run (steps.take n) := by
  induction steps generalizing s chosen n with
  | nil => rfl
  | cons step rest ih =>
    cases n with
    | zero => rfl
    | succ n =>
      have first : (s.perform (if chosen 0 then checked step else step)).1 = (s.perform step).1 := by
        split
        · exact s.perform_checked_fst step
        · rfl
      rw [replace_cons, List.take_succ_cons, List.take_succ_cons, run_cons, run_cons, first]
      exact ih _ _ _

theorem run_replace (s : Session) (chosen : Nat → Bool) (steps : List Step) :
    s.run (replace chosen steps) = s.run steps := by
  have length : (replace chosen steps).length = steps.length := List.length_mapIdx
  have whole := s.run_take_replace chosen steps steps.length
  rw [List.take_length, ← length, List.take_length] at whole
  exact whole

theorem getElem?_answers (s : Session) (steps : List Step) (n : Nat) :
    (s.answers steps)[n]? = steps[n]?.map fun step => ((s.run (steps.take n)).perform step).2 := by
  induction steps generalizing s n with
  | nil => rfl
  | cons step rest ih =>
    cases n with
    | zero => rfl
    | succ n => exact ih _ n

theorem getElem?_answers_replace (s : Session) (chosen : Nat → Bool) (steps : List Step) (n : Nat) :
    (s.answers (replace chosen steps))[n]? = steps[n]?.map fun step =>
      ((s.run (steps.take n)).perform (if chosen n then checked step else step)).2 := by
  rw [getElem?_answers, getElem?_replace, Option.map_map, run_take_replace]
  rfl

/-- The two insertions make the same graph or blame the same handle in the same words. So replacing
asserting calls by checked ones changes no state of a session and no other answer, also for the
single calls of a step that draws several edges, and a call that is refused has no effect. -/
theorem checked_calls_agree (s : Session) (chosen : Nat → Bool) (steps : List Step) :
    (∀ (g : Graph) (a b : BlockId), g.Insertion a b) ∧
    (∀ n, s.run ((replace chosen steps).take n) = s.run (steps.take n)) ∧
    (∀ n, (chosen n = false ∨ ∀ i x y, steps[n]? ≠ some (.edge i x y)) →
      (s.answers (replace chosen steps))[n]? = (s.answers steps)[n]?) ∧
    (∀ n i x y, steps[n]? = some (.edge i x y) → chosen n →
      let t := s.run (steps.take n)
      t.Attempt i x y ∧ (s.answers steps)[n]? = some (t.perform (.edge i x y)).2 ∧
        (s.answers (replace chosen steps))[n]? = some (t.perform (.tryEdge i x y)).2) ∧
    ∀ step, drawsEdges step →
      (s.perform step).1 = s.run (replace chosen (s.answered (edgeCalls step))) := by
  refine ⟨Graph.insertion, s.run_take_replace chosen steps, fun n kept => ?_,
    fun n i x y called replaced => ?_, fun step draws => ?_⟩
  · rw [getElem?_answers_replace, getElem?_answers]
    refine Option.map_congr fun step there => ?_
    have same : (if chosen n then checked step else step) = step := by
      rcases kept with spared | other
      · rw [spared]
        rfl
      · cases step with
        | edge i x y => exact absurd there (other i x y)
        | _ => exact ite_self _
    rw [same]
  · refine ⟨attempt .., ?_, ?_⟩
    · rw [getElem?_answers, called]
      rfl
    · rw [getElem?_answers_replace, called, replaced]
      rfl
  · rw [run_replace]
    exact perform_fst_eq_run draws

def callsOnCopy : List Step :=
  [.create, .block 0 "a", .edge 0 0 0, .copy 0, .blocks 1, .edge 1 1 1, .edge 1 1 0, .edge 1 0 1]

theorem checked_calls_on_copy :
    (start none).run ((replace (4 < ·) callsOnCopy).take 8) = (start none).run callsOnCopy ∧
      ((start none).answers (replace (4 < ·) callsOnCopy))[3]? =
        ((start none).answers callsOnCopy)[3]? ∧
      ((start none).answers callsOnCopy)[6]? = some (.error (.fault (.foreignBlock ⟨0, 0⟩))) ∧
      ((start none).answers (replace (4 < ·) callsOnCopy))[6]? =
        some (.error (.reported (.invariant "bb0 is not a block of this graph"))) ∧
      (((start none).run callsOnCopy).perform (.edges 1 0 [(1, 1), (1, 0)])).1 =
        ((start none).run callsOnCopy).run [.tryEdge 1 1 1] := by
  obtain ⟨-, states, others, replaced, -⟩ := checked_calls_agree (start none) (4 < ·) callsOnCopy
  obtain ⟨-, asserted, checked⟩ := replaced 6 1 1 0 rfl rfl
  obtain ⟨-, -, -, -, several⟩ :=
    checked_calls_agree ((start none).run callsOnCopy) (fun _ => true) []
  have answered : ((start none).run callsOnCopy).answered
      (edgeCalls (.edges 1 0 [(1, 1), (1, 0)])) = [.edge 1 1 1] := by
    decide +kernel
  have drawn := several (.edges 1 0 [(1, 1), (1, 0)]) rfl
  rw [answered] at drawn
  refine ⟨states 8, others 3 (.inl rfl), asserted.trans ?_, checked.trans ?_, drawn⟩
  · decide +kernel
  · decide +kernel

end Session
end FlowLoops
