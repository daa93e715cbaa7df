import FlowLoops.Proofs.Session.Change

/-! Where the graphs of a session are, and where they go. A graph stays in its slot until a report
takes it, and no two graphs ever have the same tag. -/

namespace FlowLoops
namespace Session

inductive Place where
  | slot (i : Nat)
  | report (j : Nat)
deriving DecidableEq

def graphAt? (s : Session) : Place → Option Graph
  | .slot i => s.graphs[i]?.join
  | .report j => s.reports[j]?.map (·.graph)

/-- Where the graph at a place is after a step: it is still there, or the next report took it. -/
def Place.next (s s' : Session) (p : Place) : Place :=
  if (s'.graphAt? p).isSome then p else .report s.reports.size

/-- What a step makes of the graphs: each grows where it goes, and at most one comes new, under
the tag that was next. -/
structure Advances (s s' : Session) : Prop where
  nextTag_le : s.nextTag ≤ s'.nextTag
  kept : ∀ p g, s.graphAt? p = some g → ∃ h, s'.graphAt? (p.next s s') = some h ∧ g.Grows h
  origin : ∃ new, ∀ q h, s'.graphAt? q = some h →
    (∃ p g, s.graphAt? p = some g ∧ p.next s s' = q) ∨
      q = new ∧ h.tag = s.nextTag ∧ s.nextTag < s'.nextTag ∧ h.Reachable

structure Sound (s : Session) : Prop where
  distinct : ∀ p q g h, s.graphAt? p = some g → s.graphAt? q = some h → g.tag = h.tag → p = q
  drawn : ∀ p g, s.graphAt? p = some g → g.tag < s.nextTag
  reachable : ∀ p g, s.graphAt? p = some g → g.Reachable

variable {s s' : Session} {step : Step} {p q : Place} {g h : Graph}

theorem graphAt?_slot {i : Nat} :
    s.graphAt? (.slot i) = some g ↔ s.graphs[i]? = some (some g) := Option.join_eq_some_iff

theorem Place.next_of_some (there : s'.graphAt? p = some h) : p.next s s' = p := by
  rw [next, there]
  rfl

theorem Place.next_of_none (gone : s'.graphAt? p = none) :
    p.next s s' = .report s.reports.size := by
  rw [next, gone]
  rfl

section Tables

/-! How the changes of a table show at the places. -/

theorem graphAt?_congr (graphs : s'.graphs = s.graphs) (reports : s'.reports = s.reports) :
    s'.graphAt? = s.graphAt? := by
  funext p
  cases p with
  | slot i => rw [graphAt?, graphAt?, graphs]
  | report j => rw [graphAt?, graphAt?, reports]

theorem graphAt?_push_slot {o : Option Graph} (graphs : s'.graphs = s.graphs.push o)
    (reports : s'.reports = s.reports) (p : Place) :
    s'.graphAt? p = if p = .slot s.graphs.size then o else s.graphAt? p := by
  cases p with
  | slot i =>
    rw [graphAt?, graphAt?, graphs, Array.getElem?_push]
    simp only [Place.slot.injEq]
    split <;> rfl
  | report j => rw [graphAt?, graphAt?, reports, if_neg Place.noConfusion]

theorem graphAt?_set_slot {i : Nat} {o : Option Graph} (inside : i < s.graphs.size)
    (graphs : s'.graphs = s.graphs.setIfInBounds i o) (reports : s'.reports = s.reports)
    (p : Place) : s'.graphAt? p = if p = .slot i then o else s.graphAt? p := by
  cases p with
  | slot j =>
    rw [graphAt?, graphAt?, graphs, Array.getElem?_setIfInBounds, if_pos inside]
    simp only [Place.slot.injEq, eq_comm]
    split <;> rfl
  | report j => rw [graphAt?, graphAt?, reports, if_neg Place.noConfusion]

theorem graphAt?_push_report {r : Report} (graphs : s'.graphs = s.graphs)
    (reports : s'.reports = s.reports.push r) (p : Place) :
    s'.graphAt? p = if p = .report s.reports.size then some r.graph else s.graphAt? p := by
  cases p with
  | slot i => rw [graphAt?, graphAt?, graphs, if_neg Place.noConfusion]
  | report j =>
    rw [graphAt?, graphAt?, reports, Array.getElem?_push]
    simp only [Place.report.injEq]
    split <;> rfl

end Tables

section Advances

theorem advances_of_same (le : s.nextTag ≤ s'.nextTag) (same : s'.graphAt? = s.graphAt?) :
    Advances s s' := by
  refine ⟨le, fun p g there => ?_, .slot 0, fun q h there => .inl ?_⟩
  · rw [← same] at there
    exact ⟨g, (Place.next_of_some there).symm ▸ there, .refl⟩
  · exact ⟨q, h, same ▸ there, Place.next_of_some there⟩

theorem advances_of_place (le : s.nextTag ≤ s'.nextTag)
    (after : ∀ q, s'.graphAt? q = if q = p then some h else s.graphAt? q)
    (grows : ∀ g, s.graphAt? p = some g → g.Grows h)
    (comes : s.graphAt? p = none → h.tag = s.nextTag ∧ s.nextTag < s'.nextTag ∧ h.Reachable) :
    Advances s s' := by
  have here : s'.graphAt? p = some h := by rw [after, if_pos rfl]
  have elsewhere {q : Place} (other : q ≠ p) : s'.graphAt? q = s.graphAt? q := by
    rw [after, if_neg other]
  refine ⟨le, fun q g there => ?_, p, fun q k there => ?_⟩
  · by_cases at_p : q = p
    · subst at_p
      exact ⟨h, (Place.next_of_some here).symm ▸ here, grows g there⟩
    · rw [← elsewhere at_p] at there
      exact ⟨g, (Place.next_of_some there).symm ▸ there, .refl⟩
  · by_cases at_p : q = p
    · subst at_p
      obtain rfl := Option.some.inj (here.symm.trans there)
      cases was : s.graphAt? q with
      | none => exact .inr ⟨rfl, comes was⟩
      | some g => exact .inl ⟨q, g, was, Place.next_of_some here⟩
    · exact .inl ⟨q, k, elsewhere at_p ▸ there, Place.next_of_some there⟩

theorem advances_of_take {i : Nat} (le : s.nextTag ≤ s'.nextTag)
    (there : s.graphAt? (.slot i) = some g) (free : s.graphAt? (.report s.reports.size) = none)
    (after : ∀ q, s'.graphAt? q = if q = .report s.reports.size then some g else
      if q = .slot i then none else s.graphAt? q) : Advances s s' := by
  have slot : s'.graphAt? (.slot i) = none := by
    rw [after, if_neg Place.noConfusion, if_pos rfl]
  have report : s'.graphAt? (.report s.reports.size) = some g := by rw [after, if_pos rfl]
  have elsewhere {q : Place} (unlike : q ≠ .report s.reports.size) (other : q ≠ .slot i) :
      s'.graphAt? q = s.graphAt? q := by
    rw [after, if_neg unlike, if_neg other]
  refine ⟨le, fun q k was => ?_, .slot 0, fun q k now => .inl ?_⟩
  · by_cases at_slot : q = .slot i
    · subst at_slot
      obtain rfl := Option.some.inj (there.symm.trans was)
      exact ⟨g, (Place.next_of_none slot).symm ▸ report, .refl⟩
    · have unlike : q ≠ .report s.reports.size := by
        rintro rfl
        rw [free] at was
        cases was
      rw [← elsewhere unlike at_slot] at was
      exact ⟨k, (Place.next_of_some was).symm ▸ was, .refl⟩
  · by_cases at_report : q = .report s.reports.size
    · exact ⟨.slot i, g, there, at_report ▸ Place.next_of_none slot⟩
    · have other : q ≠ .slot i := by
        rintro rfl
        rw [slot] at now
        cases now
      exact ⟨q, k, elsewhere at_report other ▸ now, Place.next_of_some now⟩

theorem graphAt?_next_slot (s : Session) : s.graphAt? (.slot s.graphs.size) = none := by
  rw [graphAt?, Array.getElem?_size]
  rfl

theorem graphAt?_next_report (s : Session) : s.graphAt? (.report s.reports.size) = none := by
  rw [graphAt?, Array.getElem?_size]
  rfl

theorem Change.advances (reachable : ∀ p g, s.graphAt? p = some g → g.Reachable)
    (change : Change s step s') : Advances s s' := by
  have inside {i : Nat} {g : Graph} (there : s.graphs[i]? = some (some g)) : i < s.graphs.size :=
    (Array.getElem?_eq_some_iff.mp there).1
  cases change with
  | idle trace tracers => exact advances_of_same (Nat.le_refl _) (graphAt?_congr rfl rfl)
  | spend => exact advances_of_same (Nat.le_succ _) (graphAt?_congr rfl rfl)
  | create hg tag =>
    refine advances_of_place (Nat.le_succ _) (graphAt?_push_slot rfl rfl) (fun g there => ?_)
      fun _ => ⟨tag, Nat.lt_succ_self _, hg⟩
    rw [graphAt?_next_slot] at there
    cases there
  | grow there grows issued =>
    have was := graphAt?_slot.mpr there
    refine advances_of_place (Nat.le_refl _) (graphAt?_set_slot (inside there) rfl rfl)
      (fun k there' => ?_) fun gone => ?_
    · obtain rfl := Option.some.inj (was.symm.trans there')
      exact grows
    · rw [was] at gone
      cases gone
  | list issued => exact advances_of_same (Nat.le_refl _) (graphAt?_congr rfl rfl)
  | detect issued => exact advances_of_same (Nat.le_refl _) (graphAt?_congr rfl rfl)
  | @take i g loops name there known =>
    refine advances_of_take (Nat.le_refl _) (graphAt?_slot.mpr there) (graphAt?_next_report s)
      fun q => ?_
    let emptied : Session := { s with graphs := s.graphs.setIfInBounds i none }
    have slots : emptied.graphAt? q = if q = .slot i then none else s.graphAt? q :=
      @graphAt?_set_slot s emptied i none (inside there) rfl rfl q
    rw [← slots]
    refine @graphAt?_push_report emptied _ ⟨name, g, loops⟩ ?_ ?_ q
    · rfl
    · rfl
  | clone name there known =>
    have hg := reachable _ _ (graphAt?_slot.mpr there)
    refine advances_of_place (Nat.le_succ _) (graphAt?_push_report rfl rfl) (fun k there' => ?_)
      fun _ => ⟨rfl, Nat.lt_succ_self _, .copy _ hg⟩
    rw [graphAt?_next_report] at there'
    cases there'

end Advances

section Soundness

theorem sound_start (limit : Option Level) : (start limit).Sound := by
  have none (p : Place) (g : Graph) : (start limit).graphAt? p ≠ some g := by
    cases p <;> exact nofun
  exact ⟨fun p _ g _ there => absurd there (none p g), fun p g there => absurd there (none p g),
    fun p g there => absurd there (none p g)⟩

theorem Advances.grows (advances : Advances s s') (was : s.graphAt? p = some g)
    (now : s'.graphAt? (p.next s s') = some h) : g.Grows h := by
  obtain ⟨k, there, grows⟩ := advances.kept p g was
  obtain rfl := Option.some.inj (there.symm.trans now)
  exact grows

theorem Advances.cases (advances : Advances s s') (there : s'.graphAt? q = some h) :
    (∃ p g, s.graphAt? p = some g ∧ p.next s s' = q ∧ g.Grows h) ∨
      h.tag = s.nextTag ∧ s.nextTag < s'.nextTag ∧ h.Reachable := by
  obtain ⟨new, origin⟩ := advances.origin
  rcases origin q h there with ⟨p, g, was, rfl⟩ | ⟨-, comes⟩
  · exact .inl ⟨p, g, was, rfl, advances.grows was there⟩
  · exact .inr comes

theorem Sound.advance (sound : s.Sound) (advances : Advances s s') : s'.Sound := by
  -- a graph that was there before has a tag below that of one that comes new, and only one does
  refine ⟨fun p q g h at_p at_q same => ?_, fun p g there => ?_, fun p g there => ?_⟩
  · obtain ⟨new, origin⟩ := advances.origin
    have drawn {a : Place} {k : Graph} (was : s.graphAt? a = some k) : k.tag ≠ s.nextTag :=
      Nat.ne_of_lt (sound.drawn a k was)
    rcases origin p g at_p with ⟨a, k, was, rfl⟩ | ⟨rfl, tag, -⟩
    · have kept := (advances.grows was at_p).tag_eq
      rcases origin q h at_q with ⟨b, m, was', rfl⟩ | ⟨-, tag, -⟩
      · have kept' := (advances.grows was' at_q).tag_eq
        have same' : k.tag = m.tag := kept.symm.trans (same.trans kept')
        rw [sound.distinct a b k m was was' same']
      · exact absurd (kept.symm.trans (same.trans tag)) (drawn was)
    · rcases origin q h at_q with ⟨b, m, was', rfl⟩ | ⟨rfl, -⟩
      · have kept' := (advances.grows was' at_q).tag_eq
        exact absurd (kept'.symm.trans (same.symm.trans tag)) (drawn was')
      · rfl
  · rcases advances.cases there with ⟨p, k, was, -, grows⟩ | ⟨tag, lt, -⟩
    · rw [grows.tag_eq]
      exact Nat.lt_of_lt_of_le (sound.drawn p k was) advances.nextTag_le
    · rw [tag]
      exact lt
  · rcases advances.cases there with ⟨p, k, was, -, grows⟩ | ⟨-, -, hg⟩
    · exact grows.reachable (sound.reachable p k was)
    · exact hg

end Soundness

end Session
end FlowLoops
