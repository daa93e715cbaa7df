import FlowLoops.Proofs.Session.Ownership

/-! The calls of a session that draw edges. The asserting and the checked form of a call end alike,
but for the kind of their refusal, and a step that draws several edges is as good as single calls up
to the first that is refused. -/

namespace FlowLoops
namespace Session
variable {s t : Session} {i x y : Nat} {g h : Graph}

def edgeCalls : Step → List Step
  | .edge i x y => [.edge i x y]
  | .tryEdge i x y => [.tryEdge i x y]
  | .edges i base pairs => pairs.map fun p => .edge i (base + p.1) (base + p.2)
  | .affine i base n count a b c d =>
    (List.range count).map fun k => .edge i (base + (a * k + b) % n) (base + (c * k + d) % n)
  | _ => []

def answered (s : Session) : List Step → List Step
  | [] => []
  | step :: rest =>
    match s.perform step with
    | (next, .ok _) => step :: next.answered rest
    | (_, .error _) => []

/-- How a call for an edge ends in its two forms. -/
inductive Attempt (s : Session) (i x y : Nat) : Prop
  | accepted {g : Graph} {a b : BlockId} (there : s.graphs[i]? = some (some g))
    (source : s.handles[x]? = some a) (target : s.handles[y]? = some b)
    (owned : g.Owns a ∧ g.Owns b)
    (edge : s.perform (.edge i x y) =
      (s.setGraph i (g.link a.index b.index)).answer (.edgeCount (g.edgeCount + 1)))
    (tryEdge : s.perform (.tryEdge i x y) = s.perform (.edge i x y))
  | refused {g : Graph} {a b foreign : BlockId} (there : s.graphs[i]? = some (some g))
    (source : s.handles[x]? = some a) (target : s.handles[y]? = some b)
    (blamed : g.Blames a b foreign)
    (edge : s.perform (.edge i x y) = s.refuse (.fault (.foreignBlock foreign)))
    (tryEdge : s.perform (.tryEdge i x y) =
      s.refuse (.reported (.invariant (Fault.foreignBlock foreign).message)))
  | missing (table : Table) (edge : s.perform (.edge i x y) = s.refuse (.missing table))
    (tryEdge : s.perform (.tryEdge i x y) = s.refuse (.missing table))

section Tables

theorem setGraph_self (there : s.graphs[i]? = some (some g)) : s.setGraph i g = s := by
  have graphs : s.graphs.setIfInBounds i (some g) = s.graphs := by
    refine Array.ext_getElem? fun j => ?_
    rw [Array.getElem?_setIfInBounds]
    split
    next same =>
      subst same
      rw [there]
      split
      · rfl
      next outside => exact absurd (Array.getElem?_eq_some_iff.mp there).1 outside
    · rfl
  rw [setGraph, graphs]

theorem setGraph_setGraph (s : Session) (i : Nat) (g h : Graph) :
    (s.setGraph i g).setGraph i h = s.setGraph i h := by
  have graphs : (s.graphs.setIfInBounds i (some g)).setIfInBounds i (some h) =
      s.graphs.setIfInBounds i (some h) := by
    refine Array.ext_getElem? fun j => ?_
    simp only [Array.getElem?_setIfInBounds, Array.size_setIfInBounds]
    split <;> rfl
  rw [setGraph, setGraph, setGraph, graphs]

theorem withGraph_of_none (gone : ∀ g, s.graphs[i]? ≠ some (some g)) (next : Graph → Result) :
    s.withGraph i next = s.refuse (.missing .graph) := by
  rw [withGraph]
  split
  next g there => exact absurd there (gone g)
  · rfl

theorem withHandle_of_some {b : BlockId} (named : s.handles[x]? = some b)
    (next : BlockId → Result) : s.withHandle x next = next b := by
  rw [withHandle, named]

theorem withHandle_of_none (unnamed : s.handles[x]? = none) (next : BlockId → Result) :
    s.withHandle x next = s.refuse (.missing .handle) := by
  rw [withHandle, unnamed]

end Tables

section Adding
variable {a b : BlockId}

theorem addEdges_of_connected (source : s.handles[x]? = some a) (target : s.handles[y]? = some b)
    (made : g.connect a b = .ok h) (rest : List (Nat × Nat)) :
    s.addEdges g ((x, y) :: rest) = s.addEdges h rest := by
  simp only [addEdges, source, target, made]

theorem addEdges_of_fault {fault : Fault} (source : s.handles[x]? = some a)
    (target : s.handles[y]? = some b) (refused : g.connect a b = .error fault)
    (rest : List (Nat × Nat)) : s.addEdges g ((x, y) :: rest) = (g, some (.fault fault)) := by
  simp only [addEdges, source, target, refused]

theorem addEdges_of_missing (unnamed : s.handles[x]? = none ∨ s.handles[y]? = none)
    (rest : List (Nat × Nat)) :
    s.addEdges g ((x, y) :: rest) = (g, some (.missing .handle)) := by
  rcases unnamed with source | target
  · simp only [addEdges, source]
  · simp only [addEdges, target]
    split
    next named => cases named
    · rfl

theorem addEdges_congr (handles : t.handles = s.handles) (g : Graph) (pairs : List (Nat × Nat)) :
    t.addEdges g pairs = s.addEdges g pairs := by
  induction pairs generalizing g with
  | nil => rfl
  | cons pair rest ih => simp only [addEdges, handles, ih]

theorem insertEdges_of_added {pairs : List (Nat × Nat)} (there : s.graphs[i]? = some (some g))
    (added : s.addEdges g pairs = (h, none)) :
    s.insertEdges i pairs = (s.setGraph i h).answer (.edgeCount h.edgeCount) := by
  rw [insertEdges, withGraph_of_some there, added]

theorem insertEdges_of_refused {pairs : List (Nat × Nat)} {r : Refusal}
    (there : s.graphs[i]? = some (some g)) (refused : s.addEdges g pairs = (h, some r)) :
    s.insertEdges i pairs = (s.setGraph i h).refuse r := by
  rw [insertEdges, withGraph_of_some there, refused]

theorem insertEdges_fst (there : s.graphs[i]? = some (some g)) (pairs : List (Nat × Nat)) :
    (s.insertEdges i pairs).1 = s.setGraph i (s.addEdges g pairs).1 := by
  cases ended : s.addEdges g pairs with
  | mk h refused =>
    cases refused with
    | none => exact congrArg Prod.fst (insertEdges_of_added there ended)
    | some r => exact congrArg Prod.fst (insertEdges_of_refused there ended)

end Adding

section Attempts

theorem attempt_of_missing (there : s.graphs[i]? = some (some g))
    (unnamed : s.handles[x]? = none ∨ s.handles[y]? = none) : Attempt s i x y := by
  have edge := insertEdges_of_refused there (addEdges_of_missing unnamed [])
  rw [setGraph_self there] at edge
  refine .missing .handle edge ?_
  rw [perform, withGraph_of_some there]
  cases source : s.handles[x]? with
  | none => exact withHandle_of_none source _
  | some a =>
    have target : s.handles[y]? = none := unnamed.resolve_left (by simp [source])
    rw [withHandle_of_some source, withHandle_of_none target]

theorem tryEdge_of_connected {a b : BlockId} (there : s.graphs[i]? = some (some g))
    (source : s.handles[x]? = some a) (target : s.handles[y]? = some b)
    (made : g.connectChecked a b = .ok h) :
    s.perform (.tryEdge i x y) = (s.setGraph i h).answer (.edgeCount h.edgeCount) := by
  rw [perform, withGraph_of_some there, withHandle_of_some source, withHandle_of_some target, made]

theorem tryEdge_of_refused {a b : BlockId} {failure : BuildFailure}
    (there : s.graphs[i]? = some (some g)) (source : s.handles[x]? = some a)
    (target : s.handles[y]? = some b) (refused : g.connectChecked a b = .error failure) :
    s.perform (.tryEdge i x y) = s.refuse failure.toFailure.toRefusal := by
  rw [perform, withGraph_of_some there, withHandle_of_some source, withHandle_of_some target,
    refused]

theorem attempt_of_named {a b : BlockId} (there : s.graphs[i]? = some (some g))
    (source : s.handles[x]? = some a) (target : s.handles[y]? = some b) : Attempt s i x y := by
  cases g.insertion a b with
  | made owned connect connectChecked =>
    have edge := insertEdges_of_added there (addEdges_of_connected source target connect [])
    have tryEdge := tryEdge_of_connected there source target connectChecked
    have count : (g.link a.index b.index).edgeCount = g.edgeCount + 1 := Array.size_push _
    rw [count] at edge tryEdge
    exact .accepted there source target owned edge (tryEdge.trans edge.symm)
  | @refused foreign blamed connect connectChecked text =>
    have edge := insertEdges_of_refused there (addEdges_of_fault source target connect [])
    rw [setGraph_self there] at edge
    have tryEdge := tryEdge_of_refused there source target connectChecked
    have error : (Violation.foreignBlock foreign).toError =
        .invariant (Fault.foreignBlock foreign).message := congrArg AnalysisError.invariant text
    rw [BuildFailure.toFailure, error] at tryEdge
    exact .refused there source target blamed edge tryEdge

theorem attempt (s : Session) (i x y : Nat) : Attempt s i x y := by
  by_cases there : ∃ g, s.graphs[i]? = some (some g)
  · obtain ⟨g, there⟩ := there
    cases source : s.handles[x]? with
    | none => exact attempt_of_missing there (.inl source)
    | some a =>
      cases target : s.handles[y]? with
      | none => exact attempt_of_missing there (.inr target)
      | some b => exact attempt_of_named there source target
  · have gone : ∀ g, s.graphs[i]? ≠ some (some g) := fun g h => there ⟨g, h⟩
    exact .missing .graph (withGraph_of_none gone _) (withGraph_of_none gone _)

end Attempts

theorem perform_call {call : Step} (form : call = .edge i x y ∨ call = .tryEdge i x y) :
    (∃ g a b, s.graphs[i]? = some (some g) ∧ s.handles[x]? = some a ∧ s.handles[y]? = some b ∧
      (g.Owns a ∧ g.Owns b) ∧ s.perform call =
        (s.setGraph i (g.link a.index b.index)).answer (.edgeCount (g.edgeCount + 1))) ∨
      ∃ r, s.perform call = s.refuse r := by
  cases s.attempt i x y with
  | accepted there source target owned edge tryEdge =>
    refine .inl ⟨_, _, _, there, source, target, owned, ?_⟩
    rcases form with rfl | rfl
    · exact edge
    · exact tryEdge.trans edge
  | refused there source target blamed edge tryEdge =>
    rcases form with rfl | rfl
    · exact .inr ⟨_, edge⟩
    · exact .inr ⟨_, tryEdge⟩
  | missing table edge tryEdge =>
    rcases form with rfl | rfl
    · exact .inr ⟨_, edge⟩
    · exact .inr ⟨_, tryEdge⟩

theorem call_fst_of_error {call : Step} (form : call = .edge i x y ∨ call = .tryEdge i x y)
    {r : Refusal} (refused : (s.perform call).2 = .error r) : (s.perform call).1 = s := by
  rcases perform_call form with ⟨g, a, b, -, -, -, -, made⟩ | ⟨r, made⟩
  · rw [made] at refused
    cases refused
  · exact congrArg Prod.fst made

section Several

theorem addEdges_cons (s : Session) (g : Graph) (x y : Nat) (rest : List (Nat × Nat)) :
    s.addEdges g ((x, y) :: rest) = match s.addEdges g [(x, y)] with
      | (h, none) => s.addEdges h rest
      | (h, some r) => (h, some r) := by
  simp only [addEdges]
  split
  · split <;> rfl
  · rfl

theorem answered_of_error {step : Step} {r : Refusal} (refused : (s.perform step).2 = .error r)
    (rest : List Step) : s.answered (step :: rest) = [] := by
  rw [answered]
  split
  next made =>
    rw [made] at refused
    cases refused
  · rfl

theorem answered_of_ok {step : Step} {a : Answer} (accepted : (s.perform step).2 = .ok a)
    (rest : List Step) :
    s.answered (step :: rest) = step :: (s.perform step).1.answered rest := by
  rw [answered]
  split
  next made => rw [made]
  next made =>
    rw [made] at accepted
    cases accepted

theorem run_cons (s : Session) (step : Step) (rest : List Step) :
    s.run (step :: rest) = (s.perform step).1.run rest := rfl

theorem insertEdges_eq_run_of_some (there : s.graphs[i]? = some (some g))
    (pairs : List (Nat × Nat)) :
    (s.insertEdges i pairs).1 = s.run (s.answered (pairs.map fun p => .edge i p.1 p.2)) := by
  rw [insertEdges_fst there]
  induction pairs generalizing s g with
  | nil => exact setGraph_self there
  | cons pair rest ih =>
    obtain ⟨x, y⟩ := pair
    rw [List.map_cons, addEdges_cons]
    cases single : s.addEdges g [(x, y)] with
    | mk h refused =>
      cases refused with
      | none =>
        have edge : s.perform (.edge i x y) = _ := insertEdges_of_added there single
        have later := ih (getElem?_setGraph there h)
        have same : (s.setGraph i h).addEdges h rest = s.addEdges h rest :=
          @addEdges_congr s (s.setGraph i h) rfl h rest
        rw [setGraph_setGraph, same] at later
        rw [answered_of_ok (congrArg Prod.snd edge), run_cons, edge]
        exact later
      | some r =>
        have edge : s.perform (.edge i x y) = _ := insertEdges_of_refused there single
        have stays := call_fst_of_error (.inl rfl) (congrArg Prod.snd edge)
        rw [answered_of_error (congrArg Prod.snd edge)]
        exact (congrArg Prod.fst edge).symm.trans stays

/-- Adding several edges is as good as adding one after the other up to the first refusal. -/
theorem insertEdges_eq_run (s : Session) (i : Nat) (pairs : List (Nat × Nat)) :
    (s.insertEdges i pairs).1 = s.run (s.answered (pairs.map fun p => .edge i p.1 p.2)) := by
  by_cases there : ∃ g, s.graphs[i]? = some (some g)
  · obtain ⟨g, there⟩ := there
    exact insertEdges_eq_run_of_some there pairs
  · have gone : ∀ g, s.graphs[i]? ≠ some (some g) := fun g h => there ⟨g, h⟩
    have refused (pairs : List (Nat × Nat)) : s.insertEdges i pairs = s.refuse (.missing .graph) :=
      withGraph_of_none gone _
    rw [refused pairs]
    cases pairs with
    | nil => rfl
    | cons pair rest =>
      have edge : s.perform (.edge i pair.1 pair.2) = _ := refused [(pair.1, pair.2)]
      rw [List.map_cons, answered_of_error (congrArg Prod.snd edge)]
      rfl

def drawsEdges : Step → Bool
  | .edge .. | .tryEdge .. | .edges .. | .affine .. => true
  | _ => false

theorem edgeCalls_form {step call : Step} (made : call ∈ edgeCalls step) :
    ∃ i x y, call = .edge i x y ∨ call = .tryEdge i x y := by
  cases step with
  | edge i x y => exact ⟨i, x, y, .inl (List.mem_singleton.mp made)⟩
  | tryEdge i x y => exact ⟨i, x, y, .inr (List.mem_singleton.mp made)⟩
  | edges i base pairs =>
    obtain ⟨p, -, rfl⟩ := List.mem_map.mp made
    exact ⟨i, _, _, .inl rfl⟩
  | affine i base n count a b c d =>
    obtain ⟨k, -, rfl⟩ := List.mem_map.mp made
    exact ⟨i, _, _, .inl rfl⟩
  | _ => cases made

theorem call_fst_eq_run {call : Step} (form : call = .edge i x y ∨ call = .tryEdge i x y) :
    (s.perform call).1 = s.run (s.answered [call]) := by
  cases made : (s.perform call).2 with
  | ok a =>
    rw [answered_of_ok made, run_cons]
    rfl
  | error r =>
    rw [answered_of_error made, call_fst_of_error form made]
    rfl

theorem perform_fst_eq_run {step : Step} (draws : drawsEdges step) :
    (s.perform step).1 = s.run (s.answered (edgeCalls step)) := by
  cases step with
  | edge i x y => exact call_fst_eq_run (.inl rfl)
  | tryEdge i x y => exact call_fst_eq_run (.inr rfl)
  | edges i base pairs =>
    have single := s.insertEdges_eq_run i (pairs.map fun p => (base + p.1, base + p.2))
    rw [List.map_map] at single
    exact single
  | affine i base n count a b c d =>
    have single := s.insertEdges_eq_run i ((List.range count).map fun k =>
      (base + (a * k + b) % n, base + (c * k + d) % n))
    rw [List.map_map] at single
    exact single
  | _ => cases draws

end Several

end Session
end FlowLoops
