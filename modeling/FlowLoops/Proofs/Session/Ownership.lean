import FlowLoops.Proofs.Session.Place

/-! Ownership over whole runs of a session. Tags are drawn in order and never twice, so a handle
goes on to belong to the graph that issued it, and to no other one. -/

namespace FlowLoops

theorem BlockId.compare_eq_lt {a b : BlockId} :
    compare a b = .lt ↔ a.graph < b.graph ∨ a.graph = b.graph ∧ a.index < b.index := by
  show (compare a.graph b.graph).then (compare a.index b.index) = .lt ↔ _
  rw [Ordering.then_eq_lt, Nat.compare_eq_lt, Nat.compare_eq_eq, Nat.compare_eq_lt]

namespace Session

def run (s : Session) (steps : List Step) : Session :=
  steps.foldl (fun s step => (s.perform step).1) s

def follow (s : Session) : List Step → Place → Place
  | [], p => p
  | step :: rest, p => (s.perform step).1.follow rest (p.next s (s.perform step).1)

def Circulates (s : Session) (b : BlockId) : Prop :=
  b ∈ s.handles ∨ (∃ loops ∈ s.loopSets, ∃ l ∈ loops, b ∈ l.blocks) ∨
    ∃ r ∈ s.reports, ∃ l ∈ r.loops, b ∈ l.blocks

/-- The graph at one place was there at a time at which that at the other was not. -/
def Predates (s : Session) (steps : List Step) (p q : Place) : Prop :=
  ∃ early late, steps = early ++ late ∧
    (∃ a g, (s.run early).graphAt? a = some g ∧ (s.run early).follow late a = p) ∧
    ∀ a g, (s.run early).graphAt? a = some g → (s.run early).follow late a ≠ q

variable {s : Session} {step : Step} {steps : List Step} {p q : Place} {g h : Graph} {b : BlockId}

theorem run_append (s : Session) (early late : List Step) :
    s.run (early ++ late) = (s.run early).run late := List.foldl_append

theorem follow_append (s : Session) (early late : List Step) (p : Place) :
    s.follow (early ++ late) p = (s.run early).follow late (s.follow early p) := by
  induction early generalizing s p with
  | nil => rfl
  | cons step rest ih => exact ih _ _

theorem Sound.reachable_of_slot {i : Nat} (sound : s.Sound)
    (there : s.graphs[i]? = some (some g)) : g.Reachable :=
  sound.reachable _ _ (graphAt?_slot.mpr there)

theorem Sound.change (sound : s.Sound) (step : Step) : Change s step (s.perform step).1 :=
  perform_change step fun _ _ => sound.reachable_of_slot

theorem Sound.advances (sound : s.Sound) (step : Step) : Advances s (s.perform step).1 :=
  (sound.change step).advances sound.reachable

theorem Sound.perform (sound : s.Sound) (step : Step) : (s.perform step).1.Sound :=
  sound.advance (sound.advances step)

theorem Sound.run (sound : s.Sound) (steps : List Step) : (s.run steps).Sound := by
  induction steps generalizing s with
  | nil => exact sound
  | cons step rest ih => exact ih (sound.perform step)

theorem Sound.kept (sound : s.Sound) (steps : List Step) (there : s.graphAt? p = some g) :
    ∃ h, (s.run steps).graphAt? (s.follow steps p) = some h ∧ g.Grows h := by
  induction steps generalizing s p g with
  | nil => exact ⟨g, there, .refl⟩
  | cons step rest ih =>
    obtain ⟨h, next, grows⟩ := (sound.advances step).kept p g there
    obtain ⟨k, last, grows'⟩ := ih (sound.perform step) next
    exact ⟨k, last, grows.trans grows'⟩

theorem Sound.grows (sound : s.Sound) (steps : List Step) (was : s.graphAt? p = some g)
    (now : (s.run steps).graphAt? (s.follow steps p) = some h) : g.Grows h := by
  obtain ⟨k, there, grows⟩ := sound.kept steps was
  obtain rfl := Option.some.inj (there.symm.trans now)
  exact grows

theorem Sound.origin (sound : s.Sound) (there : (s.run steps).graphAt? q = some h) :
    (∃ p g, s.graphAt? p = some g ∧ s.follow steps p = q) ∨ s.nextTag ≤ h.tag := by
  induction steps generalizing s with
  | nil => exact .inl ⟨q, h, there, rfl⟩
  | cons step rest ih =>
    have advances := sound.advances step
    rcases ih (sound.perform step) there with ⟨a, k, next, rfl⟩ | late
    · rcases advances.cases next with ⟨p, g, was, rfl, -⟩ | ⟨tag, -, -⟩
      · exact .inl ⟨p, g, was, rfl⟩
      · have grows := (sound.perform step).grows rest next there
        exact .inr (grows.tag_eq.trans tag).ge
    · exact .inr (advances.nextTag_le.trans late)

theorem Sound.next_inj (sound : s.Sound) (step : Step) (hp : s.graphAt? p = some g)
    (hq : s.graphAt? q = some h)
    (same : p.next s (s.perform step).1 = q.next s (s.perform step).1) : p = q := by
  obtain ⟨k, there, grows⟩ := (sound.advances step).kept p g hp
  have grows' := (sound.advances step).grows hq (same ▸ there)
  exact sound.distinct p q g h hp hq (grows.tag_eq.symm.trans grows'.tag_eq)

theorem Sound.predates_concat (sound : s.Sound) (before : s.Predates steps p q)
    (hq : (s.run steps).graphAt? q = some h) (step : Step) :
    s.Predates (steps ++ [step]) (p.next (s.run steps) ((s.run steps).perform step).1)
      (q.next (s.run steps) ((s.run steps).perform step).1) := by
  obtain ⟨early, late, rfl, ⟨a, k, there, rfl⟩, absent⟩ := before
  rw [run_append] at hq ⊢
  refine ⟨early, late ++ [step], List.append_assoc _ _ _, ⟨a, k, there, ?_⟩, fun b m there' => ?_⟩
  · rw [follow_append]
    rfl
  · rw [follow_append]
    intro same
    obtain ⟨m', last, -⟩ := (sound.run early).kept late there'
    exact absent b m there' (((sound.run early).run late).next_inj step last hq same)

theorem predates_iff {limit : Option Level} (hp : ((start limit).run steps).graphAt? p = some g)
    (hq : ((start limit).run steps).graphAt? q = some h) :
    (start limit).Predates steps p q ↔ g.tag < h.tag := by
  have sound := sound_start limit
  constructor
  · rintro ⟨early, late, rfl, ⟨a, k, there, rfl⟩, absent⟩
    rw [run_append] at hp hq
    rw [((sound.run early).grows late there hp).tag_eq]
    rcases (sound.run early).origin hq with ⟨b, m, was, follows⟩ | drawn
    · exact absurd follows (absent b m was)
    · exact Nat.lt_of_lt_of_le ((sound.run early).drawn a k there) drawn
  · intro lt
    -- the last step decides: a graph that it brings has a tag above those of all others, and
    -- graphs that were there before it keep their tags
    induction steps using List.reverseRecOn generalizing p q g h with
    | nil =>
      cases p <;> cases hp
    | append_singleton steps step ih =>
      rw [run_append] at hp hq
      have before := sound.run steps
      have advances := before.advances step
      rcases advances.cases hq with ⟨b, m, was', rfl, grows'⟩ | ⟨tag', -, -⟩
      · rcases advances.cases hp with ⟨a, k, was, rfl, grows⟩ | ⟨tag, -, -⟩
        · rw [grows.tag_eq, grows'.tag_eq] at lt
          exact sound.predates_concat (ih was was' lt) was' step
        · rw [tag, grows'.tag_eq] at lt
          exact absurd lt (Nat.lt_asymm (before.drawn b m was'))
      · rcases advances.cases hp with ⟨a, k, was, rfl, -⟩ | ⟨tag, -, -⟩
        · refine ⟨steps, [step], rfl, ⟨a, k, was, rfl⟩, ?_⟩
          rintro b m was' rfl
          have drawn := before.drawn b m was'
          rw [← (advances.grows was' hq).tag_eq, tag'] at drawn
          exact absurd drawn (Nat.lt_irrefl _)
        · rw [tag, tag'] at lt
          exact absurd lt (Nat.lt_irrefl _)

section Issuing

theorem withGraph_of_some {i : Nat} (there : s.graphs[i]? = some (some g)) (next : Graph → Result) :
    s.withGraph i next = next g := by
  rw [withGraph, there]

theorem getElem?_setGraph {i : Nat} (there : s.graphs[i]? = some (some g)) (h : Graph) :
    (s.setGraph i h).graphs[i]? = some (some h) :=
  Array.getElem?_setIfInBounds_self_of_lt (Array.getElem?_eq_some_iff.mp there).1

theorem blockCount_createBlocks (g : Graph) (stem : String) (count : Nat) :
    (createBlocks g stem count).blockCount = g.blockCount + count := by
  unfold createBlocks
  induction count with
  | zero => rfl
  | succ n ih =>
    rw [List.range_succ, List.foldl_append, List.foldl_cons, List.foldl_nil,
      Graph.blockCount_addBlock, ih, Nat.add_assoc]

theorem Issues.owned {i : Nat} (sound : s.Sound) (issues : Issues s step i b) :
    ∃ g, (s.perform step).1.graphAt? (.slot i) = some g ∧ g.Owns b := by
  cases issues with
  | @block i content g there =>
    refine ⟨g.addBlock content, graphAt?_slot.mpr ?_, Graph.owns_issueBlock g content⟩
    rw [perform, withGraph_of_some there]
    exact getElem?_setGraph there _
  | @many i count k stem g there hk =>
    refine ⟨createBlocks g stem count, graphAt?_slot.mpr ?_, ?_⟩
    · rw [perform, withGraph_of_some there]
      exact getElem?_setGraph there _
    · have inside : g.blockCount + k < (createBlocks g stem count).blockCount := by
        rw [blockCount_createBlocks]
        exact Nat.add_lt_add_left hk _
      exact ⟨(grows_createBlocks g stem count).tag_eq.symm, inside⟩
  | @blocks i g _ there listed =>
    refine ⟨g, graphAt?_slot.mpr ?_, Graph.mem_handles.mp listed⟩
    rw [perform, withGraph_of_some there]
    exact there
  | @successors i handle g a _ next there named made listed =>
    have hg := sound.reachable_of_slot there
    refine ⟨g, graphAt?_slot.mpr ?_, Graph.owns_of_mem_successors hg made listed⟩
    rw [perform, withGraph_of_some there, withHandle, named]
    exact (congrArg (fun t : Session => t.graphs[i]?) (answerWith_fst s _ _)).trans there
  | @predecessors i handle g a _ next there named made listed =>
    have hg := sound.reachable_of_slot there
    refine ⟨g, graphAt?_slot.mpr ?_, Graph.owns_of_mem_predecessors hg made listed⟩
    rw [perform, withGraph_of_some there, withHandle, named]
    exact (congrArg (fun t : Session => t.graphs[i]?) (answerWith_fst s _ _)).trans there
  | @entry i g _ there designated =>
    have hg := sound.reachable_of_slot there
    refine ⟨g, graphAt?_slot.mpr ?_, hg.consistent.entry b designated⟩
    rw [perform, withGraph_of_some there, designated]
    exact there
  | @detect i g loops l _ there made hl hb =>
    have hg := sound.reachable_of_slot there
    refine ⟨g, graphAt?_slot.mpr ?_, owns_of_mem_loops hg made l hl b hb⟩
    rw [perform, withGraph_of_some there]
    exact @detect_fst s (fun t => t.graphs[i]? = some (some g)) g _ (fun _ => there)
      fun _ _ _ => there
  | @summary i g loops l _ there made hl hb =>
    have hg := sound.reachable_of_slot there
    refine ⟨g, graphAt?_slot.mpr ?_, owns_of_mem_loops hg made l hl b hb⟩
    rw [perform, withGraph_of_some there]
    refine @detect_fst s (fun t => t.graphs[i]? = some (some g)) g _ (fun _ => there)
      fun _ _ _ => ?_
    rw [answerWith_fst]
    exact there

theorem circulates_of_reported {r : Report} (detected : r.loops ∈ s.loopSets)
    (known : b ∈ s.handles ∨ (∃ loops ∈ s.loopSets, ∃ l ∈ loops, b ∈ l.blocks) ∨
      ∃ k ∈ s.reports.push r, ∃ l ∈ k.loops, b ∈ l.blocks) : s.Circulates b := by
  rcases known with listed | set | ⟨k, hk, l, hl, hb⟩
  · exact .inl listed
  · exact .inr (.inl set)
  · rcases Array.mem_push.mp hk with hk | rfl
    · exact .inr (.inr ⟨k, hk, l, hl, hb⟩)
    · exact .inr (.inl ⟨_, detected, l, hl, hb⟩)

theorem Change.circulates {s' : Session} (change : Change s step s') (known : s'.Circulates b) :
    s.Circulates b ∨ ∃ i, Issues s step i b := by
  cases change with
  | idle trace tracers => exact .inl known
  | spend => exact .inl known
  | create hg tag => exact .inl known
  | grow there grows issued =>
    rcases known with listed | elsewhere
    · exact (issued b listed).imp_left .inl
    · exact .inl (.inr elsewhere)
  | list issued =>
    rcases known with listed | elsewhere
    · exact (issued b listed).imp_left .inl
    · exact .inl (.inr elsewhere)
  | detect issued =>
    rcases known with listed | ⟨loops, set, l, hl, hb⟩ | reported
    · exact .inl (.inl listed)
    · rcases Array.mem_push.mp set with set | rfl
      · exact .inl (.inr (.inl ⟨loops, set, l, hl, hb⟩))
      · exact .inr (issued l hl b hb)
    · exact .inl (.inr (.inr reported))
  | take name there set => exact .inl (circulates_of_reported set known)
  | clone name there set => exact .inl (circulates_of_reported set known)

theorem exists_issues {limit : Option Level} (known : ((start limit).run steps).Circulates b) :
    ∃ early step late i, steps = early ++ step :: late ∧
      Issues ((start limit).run early) step i b := by
  induction steps using List.reverseRecOn with
  | nil =>
    rcases known with listed | ⟨_, set, _⟩ | ⟨_, hr, _⟩
    · exact absurd listed (Array.not_mem_empty _)
    · exact absurd set (Array.not_mem_empty _)
    · exact absurd hr (Array.not_mem_empty _)
  | append_singleton steps step ih =>
    rw [run_append] at known
    have sound := (sound_start limit).run steps
    rcases (sound.change step).circulates known with known | ⟨i, issues⟩
    · obtain ⟨early, first, late, i, rfl, issues⟩ := ih known
      exact ⟨early, first, late ++ [step], i, List.append_assoc _ _ _, issues⟩
    · exact ⟨steps, step, [], i, rfl, issues⟩

end Issuing

/-- Whatever steps a session takes, refused ones included, no two graphs have the same tag, and
every handle belongs, with the content that it had, to the graph that issued it alone. -/
theorem handles_have_one_owner (limit : Option Level) (steps : List Step) :
    let s := (start limit).run steps
    (∀ p q g h, s.graphAt? p = some g → s.graphAt? q = some h → g.tag = h.tag → p = q) ∧
    (∀ p g, s.graphAt? p = some g → (∀ b ∈ g.entry, g.Owns b) ∧
      ∀ e ∈ g.edges.toList, e.source < g.blockCount ∧ e.target < g.blockCount) ∧
    (∀ b, s.Circulates b → ∃ early step late i, steps = early ++ step :: late ∧
      Issues ((start limit).run early) step i b) ∧
    (∀ early step late i b, steps = early ++ step :: late →
      Issues ((start limit).run early) step i b →
        let issuing := ((start limit).run early).perform step
        let p := issuing.1.follow late (.slot i)
        ∃ g h, issuing.1.graphAt? (.slot i) = some g ∧ g.Owns b ∧
          s.graphAt? p = some h ∧ h.Owns b ∧ h.content b = g.content b ∧
          g.handles <+: h.handles ∧
          ∀ q k, s.graphAt? q = some k → k.Owns b → q = p) ∧
    (∀ p q g h a b, s.graphAt? p = some g → s.graphAt? q = some h → g.Owns a → h.Owns b →
      (compare a b = .lt ↔ (start limit).Predates steps p q ∨
        p = q ∧ g.handles.idxOf a < g.handles.idxOf b)) := by
  have sound := (sound_start limit).run steps
  refine ⟨sound.distinct, fun p g there => ?_, fun b => exists_issues, ?_, ?_⟩
  · have consistent := (sound.reachable p g there).consistent
    exact ⟨consistent.entry, fun e he => ⟨consistent.source_lt e he, consistent.target_lt e he⟩⟩
  · rintro early step late i b rfl issues
    have before := (sound_start limit).run early
    obtain ⟨g, there, owned⟩ := issues.owned before
    obtain ⟨h, later, grows⟩ := (before.perform step).kept late there
    rw [run_append] at sound ⊢
    refine ⟨g, h, there, owned, later, grows.owns owned, grows.content_eq owned,
      grows.handles_prefix, fun q k there' owned' => ?_⟩
    exact sound.distinct _ _ _ _ there' later (owned'.1.symm.trans (grows.owns owned).1)
  · intro p q g h a b hp hq ha hb
    rw [BlockId.compare_eq_lt, predates_iff hp hq, ha.1, hb.1]
    refine or_congr_right ⟨?_, ?_⟩
    · rintro ⟨same, lt⟩
      obtain rfl := sound.distinct p q g h hp hq same
      obtain rfl := Option.some.inj (hp.symm.trans hq)
      rw [Graph.idxOf_handles ha, Graph.idxOf_handles hb]
      exact ⟨rfl, lt⟩
    · rintro ⟨rfl, lt⟩
      obtain rfl := Option.some.inj (hp.symm.trans hq)
      rw [Graph.idxOf_handles ha, Graph.idxOf_handles hb] at lt
      exact ⟨rfl, lt⟩

theorem handles_go_with_report :
    let s := (start none).run [.create, .block 0 "a", .detect 0, .copy 0, .report 0 0 "r"]
    ∃ h, s.graphAt? (.report 0) = some h ∧ h.Owns ⟨0, 0⟩ ∧ h.content ⟨0, 0⟩ = .ok "a" ∧
      ∀ q k, s.graphAt? q = some k → k.Owns ⟨0, 0⟩ → q = .report 0 := by
  have issues : Issues ((start none).run [.create]) (.block 0 "a") 0 ⟨0, 0⟩ :=
    @Issues.block _ 0 "a" (.empty 0) rfl
  obtain ⟨g, h, there, -, later, owned, content, -, alone⟩ :=
    (handles_have_one_owner none [.create, .block 0 "a", .detect 0, .copy 0, .report 0 0 "r"]
      ).2.2.2.1 [.create] (.block 0 "a") [.detect 0, .copy 0, .report 0 0 "r"] 0 ⟨0, 0⟩ rfl issues
  have place : (((start none).run [.create]).perform (.block 0 "a")).1.follow
      [.detect 0, .copy 0, .report 0 0 "r"] (.slot 0) = .report 0 := by
    decide +kernel
  rw [place] at later alone
  refine ⟨h, later, owned, ?_, alone⟩
  obtain rfl := Option.some.inj there
  exact content

end Session
end FlowLoops
