import FlowLoops.Proofs.Search.Simulation
import Mathlib.Data.Nat.Count

/-! The search on a part of a graph that no edge enters from outside. What the search of the whole
graph does within the part is the search of the part alone, its blocks renumbered in order. -/

namespace FlowLoops

namespace Loop

def map (f : BlockId → BlockId) (l : Loop) : Loop := ⟨l.blocks.map f⟩

def Meets (A : Nat → Prop) (l : Loop) : Prop := ∃ b ∈ l.blocks, A b.index

instance (A : Nat → Prop) [DecidablePred A] (l : Loop) : Decidable (l.Meets A) :=
  inferInstanceAs (Decidable (∃ b ∈ l.blocks, A b.index))

end Loop

section Renaming
variable {α β : Type} [DecidableEq α] [DecidableEq β] {f : α → β}

theorem idxOf_map_of_injOn {l : List α} {a : α} (inj : ∀ b ∈ l, f b = f a → b = a) :
    (l.map f).idxOf (f a) = l.idxOf a := by
  induction l with
  | nil => rfl
  | cons b rest ih =>
    obtain ⟨first, others⟩ := List.forall_mem_cons.mp inj
    by_cases same : b = a
    · rw [same, List.map_cons, List.idxOf_cons_self, List.idxOf_cons_self]
    · have apart : f b ≠ f a := fun image => same (first image)
      rw [List.map_cons, List.idxOf_cons_ne _ apart, List.idxOf_cons_ne _ same, ih others]

end Renaming

namespace Graph

def image (h : Graph) (A : Nat → Prop) [DecidablePred A] (b : BlockId) : BlockId :=
  h.handle (Nat.count A b.index)

def kept (h : Graph) (A : Nat → Prop) [DecidablePred A] (l : List BlockId) : List BlockId :=
  (l.filter (A ·.index)).map (h.image A)

/-- A graph is the part of another that has the blocks of some indices: no edge enters it from
outside, and each of its blocks has the successors kept, in order. -/
structure Restricts (g h : Graph) (A : Nat → Prop) [DecidablePred A] : Prop where
  blockCount : h.blockCount = Nat.count A g.blockCount
  closed : ∀ u v, g.Adjacent u v → A v.index → A u.index
  targets : ∀ u, g.Owns u → A u.index → h.targets (h.image A u) = h.kept A (g.targets u)

section Kept
variable {g h : Graph} {A : Nat → Prop} [DecidablePred A] {b u v : BlockId} {l : List BlockId}

theorem image_injOn (hu : g.Owns u) (hv : g.Owns v) (au : A u.index) (av : A v.index)
    (same : h.image A u = h.image A v) : u = v :=
  hu.eq_of_index hv (Nat.count_injective au av (congrArg BlockId.index same))

theorem kept_append (l l' : List BlockId) : h.kept A (l ++ l') = h.kept A l ++ h.kept A l' := by
  rw [kept, List.filter_append, List.map_append, kept, kept]

theorem kept_cons_of_mem (mem : A b.index) : h.kept A (b :: l) = h.image A b :: h.kept A l := by
  simp [kept, mem]

theorem kept_cons_of_not_mem (dropped : ¬ A b.index) : h.kept A (b :: l) = h.kept A l := by
  simp [kept, dropped]

theorem kept_eq_map (all : ∀ b ∈ l, A b.index) : h.kept A l = l.map (h.image A) := by
  have whole : l.filter (A ·.index) = l :=
    List.filter_eq_self.mpr fun b hb => decide_eq_true (all b hb)
  rw [kept, whole]

theorem kept_eq_nil (none : ∀ b ∈ l, ¬ A b.index) : h.kept A l = [] := by
  rw [kept, List.map_eq_nil_iff, List.filter_eq_nil_iff]
  exact fun b hb => by simpa using none b hb

theorem map_count_filter_range (A : Nat → Prop) [DecidablePred A] (n : Nat) :
    ((List.range n).filter (A ·)).map (Nat.count A) = List.range (Nat.count A n) := by
  induction n with
  | zero => rfl
  | succ n ih =>
    rw [List.range_succ, List.filter_append, List.map_append, ih, Nat.count_succ]
    by_cases kept : A n
    · simp [kept, List.range_succ]
    · simp [kept]

theorem Restricts.handles (part : Restricts g h A) : h.kept A g.handles = h.handles := by
  have indices : (g.handles.filter (A ·.index)) =
      ((List.range g.blockCount).filter (A ·)).map g.handle := by
    rw [Graph.handles, List.filter_map]
    rfl
  rw [kept, indices, List.map_map, Graph.handles, part.blockCount, ← map_count_filter_range,
    List.map_map]
  rfl

end Kept
end Graph

namespace Tour
variable {g h : Graph} {A : Nat → Prop} [DecidablePred A] {w w' : Tour} {b next : BlockId}

/-- What a state of the search of a graph shows of the part kept is a state of the search there. -/
structure Projects (g h : Graph) (A : Nat → Prop) [DecidablePred A] (w w' : Tour) : Prop where
  visited_iff : ∀ b, g.Owns b → A b.index → (h.image A b ∈ w'.visited ↔ b ∈ w.visited)
  onStack_iff : ∀ b, g.Owns b → A b.index → (h.image A b ∈ w'.onStack ↔ b ∈ w.onStack)
  path_eq : w'.path = h.kept A w.path
  loops_eq : w'.loops = (w.loops.filter (Loop.Meets A ·)).map (Loop.map (h.image A))

structure Layered (g : Graph) (A : Nat → Prop) (path : List BlockId) : Prop where
  owned : ∀ b ∈ path, g.Owns b
  ordered : path.Pairwise fun a b => A b.index → A a.index

structure Extends (g : Graph) (A : Nat → Prop) (path : List BlockId) (next : BlockId) : Prop where
  owned : g.Owns next
  within : A next.index → ∀ b ∈ path, A b.index

omit [DecidablePred A] in
theorem Layered.extend {path : List BlockId} (layered : Layered g A path)
    (ext : Extends g A path next) : Layered g A (path ++ [next]) := by
  refine ⟨fun b hb => ?_, ?_⟩
  · rcases List.mem_append.mp hb with hb | hb
    · exact layered.owned b hb
    · exact List.mem_singleton.mp hb ▸ ext.owned
  · rw [List.pairwise_append]
    refine ⟨layered.ordered, List.pairwise_singleton _ next, fun a ha b hb kept => ?_⟩
    exact ext.within (List.mem_singleton.mp hb ▸ kept) a ha

theorem Extends.targets (hg : g.Reachable) (part : g.Restricts h A) {path : List BlockId}
    (ext : Extends g A path next) : ∀ v ∈ g.targets next, Extends g A (path ++ [next]) v := by
  intro v hv
  have step : g.Adjacent next v := Graph.adjacent_iff.mpr hv
  refine ⟨step.owns_right hg, fun kept b hb => ?_⟩
  have before : A next.index := part.closed next v step kept
  rcases List.mem_append.mp hb with hb | hb
  · exact ext.within before b hb
  · exact List.mem_singleton.mp hb ▸ before

section Steps
variable (p : Projects g h A w w')
include p

theorem Projects.enter_of_mem (owned : g.Owns b) (kept : A b.index) :
    Projects g h A (w.enter b) (w'.enter (h.image A b)) := by
  have mem_insert {s s' : Finset BlockId} (c : BlockId) (hc : g.Owns c) (ac : A c.index)
      (iff : h.image A c ∈ s' ↔ c ∈ s) :
      h.image A c ∈ insert (h.image A b) s' ↔ c ∈ insert b s := by
    rw [Finset.mem_insert, Finset.mem_insert, iff]
    refine or_congr_left ⟨Graph.image_injOn hc owned ac kept, ?_⟩
    rintro rfl
    rfl
  refine ⟨fun c hc ac => ?_, fun c hc ac => ?_, ?_, p.loops_eq⟩
  · exact mem_insert c hc ac (p.visited_iff c hc ac)
  · exact mem_insert c hc ac (p.onStack_iff c hc ac)
  · rw [Tour.enter, Tour.enter, p.path_eq, Graph.kept_append, Graph.kept_cons_of_mem kept]
    rfl

theorem Projects.enter_of_not_mem (dropped : ¬ A b.index) : Projects g h A (w.enter b) w' := by
  have mem_insert {s : Finset BlockId} (c : BlockId) (ac : A c.index) : c ∈ insert b s ↔ c ∈ s := by
    rw [Finset.mem_insert, or_iff_right]
    rintro rfl
    exact dropped ac
  refine ⟨fun c hc ac => ?_, fun c hc ac => ?_, ?_, p.loops_eq⟩
  · exact (p.visited_iff c hc ac).trans (mem_insert c ac).symm
  · exact (p.onStack_iff c hc ac).trans (mem_insert c ac).symm
  · rw [Tour.enter, Graph.kept_append, Graph.kept_cons_of_not_mem dropped, p.path_eq]
    exact (List.append_nil _).symm

theorem Projects.close_of_mem (layered : Layered g A w.path) (ext : Extends g A w.path next)
    (kept : A next.index) : Projects g h A (w.close next) (w'.close (h.image A next)) := by
  have whole : h.kept A w.path = w.path.map (h.image A) := Graph.kept_eq_map (ext.within kept)
  have position : (w.path.map (h.image A)).idxOf (h.image A next) = w.path.idxOf next :=
    idxOf_map_of_injOn fun b hb =>
      Graph.image_injOn (layered.owned b hb) ext.owned (ext.within kept b hb) kept
  have meets : Loop.Meets A ⟨w.path.drop (w.path.idxOf next) ++ [next]⟩ :=
    ⟨next, List.mem_append_right _ List.mem_cons_self, kept⟩
  refine ⟨p.visited_iff, p.onStack_iff, p.path_eq, ?_⟩
  rw [Tour.close, Tour.close, p.path_eq, whole, position, p.loops_eq, List.filter_append,
    List.map_append, ← List.map_drop]
  simp [meets, Loop.map]

theorem Projects.close_of_not_mem (layered : Layered g A w.path) (dropped : ¬ A next.index) :
    Projects g h A (w.close next) w' := by
  have apart : ¬ Loop.Meets A ⟨w.path.drop (w.path.idxOf next) ++ [next]⟩ := by
    rintro ⟨b, hb, kept⟩
    rcases List.mem_append.mp hb with hb | hb
    · -- the path comes to `next` before `b`, and does not enter the part again
      have first : next ∈ w.path := by
        rw [← List.idxOf_lt_length_iff]
        by_contra beyond
        rw [List.drop_eq_nil_of_le (Nat.le_of_not_lt beyond)] at hb
        exact List.not_mem_nil hb
      obtain ⟨front, rest, split, off⟩ := List.eq_append_cons_of_mem first
      have ordered := layered.ordered
      rw [split, List.idxOf_append_of_notMem off, List.idxOf_cons_self, Nat.add_zero,
        List.drop_left] at hb
      rw [split, List.pairwise_append, List.pairwise_cons] at ordered
      rcases List.mem_cons.mp hb with rfl | hb
      · exact dropped kept
      · exact dropped (ordered.2.1.1 b hb kept)
    · exact dropped (List.mem_singleton.mp hb ▸ kept)
  refine ⟨p.visited_iff, p.onStack_iff, p.path_eq, ?_⟩
  rw [Tour.close, p.loops_eq, List.filter_append]
  simp [apart]

theorem Projects.leave_of_mem (owned : g.Owns b) (kept : A b.index) {path : List BlockId}
    (top : w.path = path ++ [b]) : Projects g h A (w.leave b) (w'.leave (h.image A b)) := by
  refine ⟨p.visited_iff, fun c hc ac => ?_, ?_, p.loops_eq⟩
  · rw [Tour.leave, Tour.leave, Finset.mem_erase, Finset.mem_erase, p.onStack_iff c hc ac]
    refine and_congr_left' (not_congr ⟨Graph.image_injOn hc owned ac kept, ?_⟩)
    rintro rfl
    rfl
  · rw [Tour.leave, Tour.leave, p.path_eq, top, Graph.kept_append, Graph.kept_cons_of_mem kept,
      List.dropLast_concat]
    exact List.dropLast_concat

theorem Projects.leave_of_not_mem (dropped : ¬ A b.index) {path : List BlockId}
    (top : w.path = path ++ [b]) : Projects g h A (w.leave b) w' := by
  refine ⟨p.visited_iff, fun c hc ac => ?_, ?_, p.loops_eq⟩
  · rw [Tour.leave, Finset.mem_erase, p.onStack_iff c hc ac, and_iff_right]
    rintro rfl
    exact dropped ac
  · rw [Tour.leave, p.path_eq, top, Graph.kept_append, Graph.kept_cons_of_not_mem dropped,
      List.dropLast_concat]
    exact List.append_nil _

end Steps

theorem Projects.visit_of_call (part : g.Restricts h A) (p : Projects g h A w w')
    (owned : g.Owns b)
    (call : ∀ v, Projects g h A (w.enter b) v →
      Projects g h A ((w.enter b).examine g (g.targets b)).val
        (v.examine h (h.kept A (g.targets b))).val) :
    Projects g h A (w.visit g b) (if A b.index then w'.visit h (h.image A b) else w') := by
  have top := (stack_examine (g := g) (w := w.enter b) (g.targets b)).2
  split
  next mem =>
    have called := call _ (p.enter_of_mem owned mem)
    rw [← part.targets b owned mem] at called
    exact called.leave_of_mem owned mem top
  next dropped =>
    -- from outside the part the search does not come into it
    have outside : h.kept A (g.targets b) = [] := Graph.kept_eq_nil fun v hv kept =>
      dropped (part.closed b v (Graph.adjacent_iff.mpr hv) kept)
    have called := call _ (p.enter_of_not_mem dropped)
    rw [outside, examine_nil] at called
    exact called.leave_of_not_mem dropped top

theorem Projects.examine (hg : g.Reachable) (part : g.Restricts h A) {ahead : List BlockId}
    (p : Projects g h A w w') (layered : Layered g A w.path)
    (ext : ∀ v ∈ ahead, Extends g A w.path v) :
    Projects g h A (w.examine g ahead).val (w'.examine h (h.kept A ahead)).val := by
  induction w, ahead using Tour.examine.induct g generalizing w' with
  | case1 w =>
    rw [examine_nil, Graph.kept, List.filter_nil, List.map_nil, examine_nil]
    exact p
  | case2 w next rest onStack ih =>
    obtain ⟨ext, others⟩ := List.forall_mem_cons.mp ext
    rw [examine_onStack onStack]
    by_cases mem : A next.index
    · have onStack' := (p.onStack_iff next ext.owned mem).mpr onStack
      rw [Graph.kept_cons_of_mem mem, examine_onStack onStack']
      exact ih (p.close_of_mem layered ext mem) layered others
    · rw [Graph.kept_cons_of_not_mem mem]
      exact ih (p.close_of_not_mem layered mem) layered others
  | case3 w next rest inactive visited ih =>
    obtain ⟨ext, others⟩ := List.forall_mem_cons.mp ext
    rw [examine_visited inactive visited]
    by_cases mem : A next.index
    · have inactive' := mt (p.onStack_iff next ext.owned mem).mp inactive
      have visited' := (p.visited_iff next ext.owned mem).mpr visited
      rw [Graph.kept_cons_of_mem mem, examine_visited inactive' visited']
      exact ih p layered others
    · rw [Graph.kept_cons_of_not_mem mem]
      exact ih p layered others
  | case4 w next rest inactive unseen inner _ call ih₁ ih₂ =>
    obtain ⟨ext, others⟩ := List.forall_mem_cons.mp ext
    have visited := p.visit_of_call part ext.owned fun v entered =>
      ih₁ entered (layered.extend ext) (ext.targets hg part)
    have back : (w.visit g next).path = w.path := path_visit
    rw [examine_unvisited inactive unseen]
    rw [visit, call] at visited back ⊢
    by_cases mem : A next.index
    · have inactive' := mt (p.onStack_iff next ext.owned mem).mp inactive
      have unseen' := mt (p.visited_iff next ext.owned mem).mp unseen
      rw [if_pos mem] at visited
      rw [Graph.kept_cons_of_mem mem, examine_unvisited inactive' unseen']
      exact ih₂ visited (back ▸ layered) (back ▸ others)
    · rw [if_neg mem] at visited
      rw [Graph.kept_cons_of_not_mem mem]
      exact ih₂ visited (back ▸ layered) (back ▸ others)

theorem Projects.visitAll (hg : g.Reachable) (part : g.Restricts h A) {roots : List BlockId}
    (p : Projects g h A w w') (idle : w.path = []) (owned : ∀ b ∈ roots, g.Owns b) :
    Projects g h A (w.visitAll g roots) (w'.visitAll h (h.kept A roots)) := by
  induction roots generalizing w w' with
  | nil => exact p
  | cons root rest ih =>
    obtain ⟨owned, others⟩ := List.forall_mem_cons.mp owned
    have ext : Extends g A w.path root := ⟨owned, by simp [idle]⟩
    have layered : Layered g A w.path := ⟨by simp [idle], by simp [idle]⟩
    have visited := p.visit_of_call part owned fun v entered =>
      entered.examine hg part (layered.extend ext) (ext.targets hg part)
    have back : (w.visit g root).path = [] := path_visit.trans idle
    rw [Tour.visitAll]
    by_cases mem : A root.index
    · rw [Graph.kept_cons_of_mem mem, Tour.visitAll]
      rw [if_pos mem] at visited
      by_cases seen : root ∈ w.visited
      · rw [if_pos seen, if_pos ((p.visited_iff root owned mem).mpr seen)]
        exact ih p idle others
      · rw [if_neg seen, if_neg (mt (p.visited_iff root owned mem).mp seen)]
        exact ih visited back others
    · rw [Graph.kept_cons_of_not_mem mem]
      rw [if_neg mem] at visited
      split
      · exact ih p idle others
      · exact ih visited back others

theorem projects_start : Projects g h A start start := by
  constructor <;> simp [start, Graph.kept]

end Tour

theorem Graph.Restricts.loops {g h : Graph} {A : Nat → Prop} [DecidablePred A]
    (part : g.Restricts h A) (hg : g.Reachable) (hh : h.Reachable) {loops : List Loop}
    (detected : g.loops = .ok loops) :
    h.loops = .ok ((loops.filter (Loop.Meets A ·)).map (Loop.map (h.image A))) := by
  obtain ⟨s, made, rep⟩ := Search.exists_represents hg
  obtain ⟨t, made', rep'⟩ := Search.exists_represents hh
  have owned : ∀ b ∈ g.handles, g.Owns b := fun b hb => Graph.mem_handles.mp hb
  have projects := (Tour.projects_start (g := g) (h := h) (A := A)).visitAll hg part rfl owned
  rw [part.handles] at projects
  have shown : t.loops.toList =
      (s.loops.toList.filter (Loop.Meets A ·)).map (Loop.map (h.image A)) := by
    rw [← rep.loops_eq, ← rep'.loops_eq, projects.loops_eq]
  rw [Graph.loops, made] at detected
  obtain rfl := Except.ok.inj detected
  rw [Graph.loops, made']
  exact congrArg Except.ok shown

end FlowLoops
