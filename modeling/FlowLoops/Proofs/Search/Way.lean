import FlowLoops.Proofs.Graph.Dominance
import FlowLoops.Proofs.Search.Run

/-! The ways of the search. The way to a block is the path on which it was entered, the block
included. Ways never change again, and they tell what the search reports: an edge is a back edge if
and only if its target lies on the way to its source, and its loop is the rest of that way. -/

namespace FlowLoops

def loopAlong (way : BlockId → List BlockId) (e : BackEdge) : Loop :=
  ⟨(way e.latch).drop ((way e.latch).idxOf e.header) ++ [e.header]⟩

/-- A way begins at the first block that reaches its end, and starts with the ways to all blocks
that it passes. -/
structure IsWay (g : Graph) (way : BlockId → List BlockId) (u : BlockId) : Prop where
  walk : ∃ m, g.FirstReaching m u ∧ Walk g.Adjacent m u (way u)
  nodup : (way u).Nodup
  owned : ∀ b ∈ way u, g.Owns b
  initial : ∀ front b rest, way u = front ++ b :: rest → way b = front ++ [b]

section Ways
variable {g : Graph} {u : BlockId} {way way' : BlockId → List BlockId}

theorem IsWay.congr (hw : IsWay g way u)
    (same : way' u = way u) (within : ∀ c ∈ way u, way' c = way c) : IsWay g way' u := by
  obtain ⟨walk, nodup, owned, initial⟩ := hw
  refine ⟨same ▸ walk, same ▸ nodup, same ▸ owned, fun front b rest split => ?_⟩
  rw [same] at split
  rw [within b (split ▸ List.mem_append_right _ List.mem_cons_self)]
  exact initial front b rest split

theorem loopAlong_congr {e : BackEdge}
    (same : way' e.latch = way e.latch) : loopAlong way' e = loopAlong way e := by
  rw [loopAlong, loopAlong, same]

end Ways

namespace Search
variable {g : Graph} {s t : Search} {b u v : BlockId} {way : BlockId → List BlockId}

structure Ways (g : Graph) (s : Search) (way : BlockId → List BlockId) : Prop where
  active : ∀ front b rest, s.path.toList = front ++ b :: rest → way b = front ++ [b]
  entered : ∀ u, g.Owns u → ¬ s.Fresh u → IsWay g way u ∧ ∀ b ∈ way u, ¬ s.Fresh b
  back : ∀ e ∈ s.backEdges.toList, s.Passed g e.latch e.header ∧ e.header ∈ way e.latch
  passed : ∀ u v, s.Passed g u v → v ∈ way u → ⟨u, v⟩ ∈ s.backEdges.toList
  loops : s.loops.toList = s.backEdges.toList.map (loopAlong way)

def Rooted (g : Graph) (s : Search) : Prop :=
  ∀ r ∈ s.path.toList.head?, ∀ a u, g.Owns a → a.index < r.index → g.Reaches a u → s.Finished u

theorem Seen.finished_of_reaches (hg : g.Reachable) (hs : Seen g s) (h : Invariant g s)
    (idle : s.frames = []) (finished : s.Finished u) (reaches : g.Reaches u v) : s.Finished v := by
  induction reaches with
  | refl => exact finished
  | tail _ step ih =>
    exact h.finished_of_idle idle (step.owns_right hg) (hs _ _ (.inr ⟨ih, step⟩))

theorem rooted_initial (g : Graph) : Rooted g (initial g) := by
  intro r hr
  simp [initial] at hr

theorem Rooted.enter (hr : Rooted g s) (fresh : s.Fresh b) (busy : s.path.toList ≠ []) :
    Rooted g (s.enter g b) := by
  intro r head a u ha lt reaches
  rw [finished_enter fresh]
  refine hr r ?_ a u ha lt reaches
  simpa [Search.enter, List.head?_append_of_ne_nil _ busy] using head

theorem Rooted.move (hg : g.Reachable) (h : Invariant g s) (hs : Seen g s) (hr : Rooted g s)
    (m : Move g s t) : Rooted g t := by
  cases m with
  | @root b idle owned fresh earlier =>
    intro r head a u ha lt reaches
    have path := h.path_of_idle idle
    obtain rfl : b = r := by simpa [Search.enter, path] using head
    rw [finished_enter fresh]
    exact hs.finished_of_reaches hg h idle (h.finished_of_idle idle ha (earlier a ha lt)) reaches
  | descend top fresh =>
    refine Rooted.enter (s := s.withFrames _) hr fresh ?_
    simp [withFrames, h.path_eq_of_top top]
  | close => exact hr
  | skip => exact hr
  | @leave b passed below top =>
    have inside := h.lt_size (h.owned_of_top top)
    intro r head a u ha lt reaches
    refine (finished_leave inside).mpr (.inl (hr r ?_ a u ha lt reaches))
    rw [h.path_eq_leave top]
    exact List.mem_head?_append_of_mem_head? head

theorem Ways.way_of_top (hw : Ways g s way) (h : Invariant g s) {passed ahead : List BlockId}
    {below : List Frame} (top : s.frames = ⟨b, passed, ahead⟩ :: below) :
    way b = s.path.toList := by
  have path := h.path_eq_of_top top
  rw [hw.active _ b [] path, path]

def wayTo (s : Search) (b : BlockId) (way : BlockId → List BlockId) : BlockId → List BlockId :=
  Function.update way b (s.path.toList ++ [b])

theorem wayTo_self : wayTo s b way b = s.path.toList ++ [b] := Function.update_self ..

theorem wayTo_of_not_fresh (fresh : s.Fresh b) (hu : ¬ s.Fresh u) : wayTo s b way u = way u :=
  Function.update_of_ne (fun same : u = b => hu (same ▸ fresh)) _ _

theorem Ways.wayTo_active (hw : Ways g s way) (h : Invariant g s) (fresh : s.Fresh b) :
    ∀ front c rest, s.path.toList ++ [b] = front ++ c :: rest → wayTo s b way c = front ++ [c] := by
  intro front c rest split
  rcases List.eq_nil_or_concat rest with rfl | ⟨before, last, rfl⟩
  · obtain ⟨rfl, same⟩ := List.append_inj' split rfl
    obtain rfl : b = c := by simpa using same
    exact wayTo_self
  · rw [List.concat_eq_append, ← List.cons_append, ← List.append_assoc] at split
    obtain ⟨old, -⟩ := List.append_inj' split rfl
    have mem : c ∈ s.path.toList := old ▸ List.mem_append_right _ List.mem_cons_self
    rw [wayTo_of_not_fresh fresh fun fresh => h.not_mem_path_of_fresh fresh mem]
    exact hw.active front c before old

theorem Ways.isWay_wayTo (hw : Ways g s way) (h : Invariant g s) (owned : g.Owns b)
    (fresh : s.Fresh b)
    (walk : ∃ r, g.FirstReaching r b ∧ Walk g.Adjacent r b (s.path.toList ++ [b])) :
    IsWay g (wayTo s b way) b := by
  constructor
  · rwa [wayTo_self]
  · rw [wayTo_self]
    exact h.nodup_concat fresh
  · intro c hc
    rw [wayTo_self, List.mem_append, List.mem_singleton] at hc
    rcases hc with hc | rfl
    · exact h.owned_of_mem_path hc
    · exact owned
  · rw [wayTo_self]
    exact hw.wayTo_active h fresh

theorem Ways.enter (hw : Ways g s way) (h : Invariant g s) (frames : List Frame)
    (owned : g.Owns b) (fresh : s.Fresh b) (m : Move g s ((s.withFrames frames).enter g b))
    (edge : ∀ u v, s.AtEdge u v → v = b)
    (walk : ∃ r, g.FirstReaching r b ∧ Walk g.Adjacent r b (s.path.toList ++ [b])) :
    Ways g ((s.withFrames frames).enter g b) (wayTo s b way) := by
  have stays {c : BlockId} (hc : ¬ s.Fresh c) : ¬ ((s.withFrames frames).enter g b).Fresh c :=
    fun fresh => hc (h.fresh_of_move m fresh)
  have now : ¬ ((s.withFrames frames).enter g b).Fresh b :=
    not_fresh_enter (fresh_withFrames.mpr fresh)
  refine ⟨?_, fun u hu entered => ?_, fun e he => ?_, fun u v passed mem => ?_, ?_⟩
  · rw [path_enter]
    exact hw.wayTo_active h fresh
  · by_cases before : s.Fresh u
    · obtain rfl : u = b := eq_of_entered owned (fresh_withFrames.mpr fresh) hu before entered
      refine ⟨hw.isWay_wayTo h owned fresh walk, fun c hc => ?_⟩
      rw [wayTo_self, List.mem_append, List.mem_singleton] at hc
      rcases hc with hc | rfl
      · exact stays fun fresh => h.not_mem_path_of_fresh fresh hc
      · exact now
    · obtain ⟨isWay, all⟩ := hw.entered u hu before
      have same : wayTo s b way u = way u := wayTo_of_not_fresh fresh before
      refine ⟨isWay.congr same fun c hc => wayTo_of_not_fresh fresh (all c hc), fun c hc => ?_⟩
      exact stays (all c (same ▸ hc))
  · obtain ⟨passed, mem⟩ := hw.back e he
    rw [wayTo_of_not_fresh fresh (h.not_fresh_of_passed passed)]
    exact ⟨h.passed_of_move m passed, mem⟩
  · rcases m.passed_or_atEdge h passed with before | at_edge
    · rw [wayTo_of_not_fresh fresh (h.not_fresh_of_passed before)] at mem
      exact hw.passed u v before mem
    · -- the edge just passed leads to `b`, which no way to an older block meets
      obtain rfl := edge u v at_edge
      obtain ⟨passed, ahead, below, top⟩ := at_edge
      rw [wayTo_of_not_fresh fresh (h.not_fresh_of_top top), hw.way_of_top h top] at mem
      exact absurd mem (h.not_mem_path_of_fresh fresh)
  · refine hw.loops.trans (List.map_congr_left fun e he => Eq.symm ?_)
    exact loopAlong_congr (wayTo_of_not_fresh fresh (h.not_fresh_of_passed (hw.back e he).1))

theorem walk_of_root (hg : g.Reachable) (h : Invariant g s) (hs : Seen g s) (idle : s.frames = [])
    (owned : g.Owns b) (fresh : s.Fresh b)
    (earlier : ∀ a, g.Owns a → a.index < b.index → ¬ s.Fresh a) :
    ∃ r, g.FirstReaching r b ∧ Walk g.Adjacent r b (s.path.toList ++ [b]) := by
  rw [h.path_of_idle idle]
  refine ⟨b, ⟨owned, .refl, fun a ha reaches => ?_⟩, ⟨by simp, rfl, rfl⟩⟩
  by_contra lt
  have finished := h.finished_of_idle idle ha (earlier a ha (Nat.lt_of_not_le lt))
  exact fresh.not_finished (hs.finished_of_reaches hg h idle finished reaches)

theorem Ways.walk_of_descend (hw : Ways g s way) (h : Invariant g s)
    (hr : Rooted g s) {next : BlockId} {passed ahead : List BlockId} {below : List Frame}
    (top : s.frames = ⟨b, passed, next :: ahead⟩ :: below) (fresh : s.Fresh next) :
    ∃ r, g.FirstReaching r next ∧ Walk g.Adjacent r next (s.path.toList ++ [next]) := by
  have step := h.next_adjacent top
  obtain ⟨isWay, -⟩ := hw.entered b step.owns_left (h.not_fresh_of_top top)
  obtain ⟨r, first, walk⟩ := isWay.walk
  rw [hw.way_of_top h top] at walk
  have ne : s.path.toList ≠ [] := by
    intro none
    rw [none] at walk
    cases walk.head
  refine ⟨r, ⟨first.owned, first.reaches.tail step, fun a ha reaches => ?_⟩, ?_, ?_, ?_⟩
  · by_contra lt
    exact fresh.not_finished (hr r walk.head a next ha (Nat.lt_of_not_le lt) reaches)
  · exact isChain_concat walk.chain walk.last step
  · rw [List.head?_append_of_ne_nil _ ne]
    exact walk.head
  · simp

theorem Ways.skip (hw : Ways g s way) (h : Invariant g s) {next : BlockId}
    {passed ahead : List BlockId} {below : List Frame}
    (top : s.frames = ⟨b, passed, next :: ahead⟩ :: below) (finished : s.Finished next) :
    Ways g (s.withFrames (⟨b, next :: passed, ahead⟩ :: below)) way := by
  have m := Move.skip (g := g) top finished
  refine ⟨hw.active, hw.entered, fun e he => ?_, fun u v passed mem => ?_, hw.loops⟩
  · obtain ⟨passed, mem⟩ := hw.back e he
    exact ⟨h.passed_of_move m passed, mem⟩
  · rcases m.passed_or_atEdge h passed with before | edge
    · exact hw.passed u v before mem
    · obtain ⟨rfl, rfl⟩ := edge.eq_of_top top
      rw [hw.way_of_top h top] at mem
      exact absurd mem (h.not_mem_path_of_finished finished)

theorem Ways.close (hw : Ways g s way) (h : Invariant g s) {next : BlockId} {position : Nat}
    {passed ahead : List BlockId} {below : List Frame}
    (top : s.frames = ⟨b, passed, next :: ahead⟩ :: below)
    (active : s.marks[next.index]? = some (.active position)) (owned : g.Owns next) :
    Ways g ((s.withFrames (⟨b, next :: passed, ahead⟩ :: below)).record b next position) way := by
  have m := Move.close (g := g) top active
  have on_way : next ∈ way b := by
    rw [hw.way_of_top h top]
    exact (h.mem_path_iff_active owned).mpr ⟨position, active⟩
  have loop : (⟨(s.path.extract position).toList ++ [next]⟩ : Loop) = loopAlong way ⟨b, next⟩ := by
    rw [loopAlong, hw.way_of_top h top, h.suffix_of_active owned active]
  refine ⟨hw.active, hw.entered, fun e he => ?_, fun u v passed mem => ?_, ?_⟩
  · rw [record, Array.toList_push, List.mem_append, List.mem_singleton] at he
    rcases he with he | rfl
    · obtain ⟨passed, mem⟩ := hw.back e he
      exact ⟨h.passed_of_move m passed, mem⟩
    · exact ⟨.inl ⟨_, List.mem_cons_self, rfl, List.mem_cons_self⟩, on_way⟩
  · rw [record, Array.toList_push, List.mem_append, List.mem_singleton]
    rcases m.passed_or_atEdge h passed with before | edge
    · exact .inl (hw.passed u v before mem)
    · obtain ⟨rfl, rfl⟩ := edge.eq_of_top top
      exact .inr rfl
  · simp only [record, withFrames, Array.toList_push, List.map_append, List.map_cons, List.map_nil,
      hw.loops, loop]

theorem Ways.leave (hw : Ways g s way) (h : Invariant g s) {passed : List BlockId}
    {below : List Frame} (top : s.frames = ⟨b, passed, []⟩ :: below) :
    Ways g (s.leave b below) way := by
  have m := Move.leave (g := g) top
  refine ⟨fun front c rest split => ?_, fun u hu entered => ?_, fun e he => ?_,
    fun u v passed mem => ?_, hw.loops⟩
  · refine hw.active front c (rest ++ [b]) ?_
    rw [h.path_eq_leave top, split, List.append_assoc, List.cons_append]
  · have not_top := h.not_fresh_of_top top
    rw [fresh_leave not_top] at entered
    obtain ⟨isWay, all⟩ := hw.entered u hu entered
    exact ⟨isWay, fun c hc => by simpa only [fresh_leave not_top] using all c hc⟩
  · obtain ⟨passed, mem⟩ := hw.back e he
    exact ⟨h.passed_of_move m passed, mem⟩
  · rcases m.passed_or_atEdge h passed with before | ⟨_, _, _, at_top⟩
    · exact hw.passed u v before mem
    · simp [top] at at_top

theorem Ways.move (hg : g.Reachable) (hw : Ways g s way) (h : Invariant g s) (hs : Seen g s)
    (hr : Rooted g s) (m : Move g s t) : ∃ way', Ways g t way' := by
  cases m with
  | root idle owned fresh earlier =>
    refine ⟨_, hw.enter h s.frames owned fresh (.root idle owned fresh earlier) ?_
      (walk_of_root hg h hs idle owned fresh earlier)⟩
    rintro u v ⟨_, _, _, top⟩
    simp [idle] at top
  | descend top fresh =>
    refine ⟨_, hw.enter h _ ((h.next_adjacent top).owns_right hg) fresh (.descend top fresh) ?_
      (hw.walk_of_descend h hr top fresh)⟩
    exact fun u v edge => (edge.eq_of_top top).2
  | close top active =>
    exact ⟨way, hw.close h top active ((h.next_adjacent top).owns_right hg)⟩
  | skip top finished => exact ⟨way, hw.skip h top finished⟩
  | leave top => exact ⟨way, hw.leave h top⟩

theorem ways_initial (g : Graph) : Ways g (initial g) fun _ => [] := by
  refine ⟨fun front b rest split => ?_, fun u hu entered => ?_, fun e he => ?_,
    fun u v _ mem => ?_, rfl⟩
  · simp [initial] at split
  · have inside : u.index < g.blockCount := hu.2
    simp [Fresh, initial, inside] at entered
  · simp [initial] at he
  · cases mem

theorem Run.rooted (hg : g.Reachable) (h : Run g s) : Rooted g s := by
  induction h with
  | refl => exact rooted_initial g
  | tail before m ih =>
    have run : Run g _ := before
    exact ih.move hg (run.invariant hg) (run.seen hg) m

theorem Run.exists_ways (hg : g.Reachable) (h : Run g s) : ∃ way, Ways g s way := by
  induction h with
  | refl => exact ⟨_, ways_initial g⟩
  | tail before m ih =>
    have run : Run g _ := before
    obtain ⟨way, hw⟩ := ih
    exact hw.move hg (run.invariant hg) (run.seen hg) (run.rooted hg) m

end Search
end FlowLoops
