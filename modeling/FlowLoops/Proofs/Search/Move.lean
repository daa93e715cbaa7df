import FlowLoops.Loop.Search
import FlowLoops.Proofs.Graph.Walk

/-! The moves of the search. There are five: a root is entered while the stack is empty, the top
frame passes an edge in one of three ways, and a block without further edges is left. -/

namespace FlowLoops
namespace Search
variable {g : Graph} {s t : Search} {b u v : BlockId}

def Fresh (s : Search) (b : BlockId) : Prop := s.marks[b.index]? = some .fresh

def Finished (s : Search) (b : BlockId) : Prop := s.marks[b.index]? = some .finished

/-- An edge has been looked at: by the frame of its source, or before that block was left. -/
def Passed (g : Graph) (s : Search) (u v : BlockId) : Prop :=
  (∃ f ∈ s.frames, f.block = u ∧ v ∈ f.passed) ∨ (s.Finished u ∧ g.Adjacent u v)

def AtEdge (s : Search) (u v : BlockId) : Prop :=
  ∃ passed ahead below, s.frames = ⟨u, passed, v :: ahead⟩ :: below

def enter (g : Graph) (s : Search) (b : BlockId) : Search :=
  { s with
    marks := s.marks.setIfInBounds b.index (.active s.path.size)
    path := s.path.push b
    frames := ⟨b, [], g.targets b⟩ :: s.frames }

def leave (s : Search) (b : BlockId) (below : List Frame) : Search :=
  { s with
    marks := s.marks.setIfInBounds b.index .finished
    path := s.path.pop
    frames := below }

def withFrames (s : Search) (frames : List Frame) : Search := { s with frames }

def record (s : Search) (latch header : BlockId) (position : Nat) : Search :=
  { s with
    backEdges := s.backEdges.push ⟨latch, header⟩
    loops := s.loops.push ⟨(s.path.extract position).toList ++ [header]⟩ }

inductive Move (g : Graph) (s : Search) : Search → Prop
  /-- a root: no block created before it is left to enter -/
  | root {b : BlockId} (idle : s.frames = []) (owned : g.Owns b) (fresh : s.Fresh b)
      (earlier : ∀ a, g.Owns a → a.index < b.index → ¬ s.Fresh a) : Move g s (s.enter g b)
  | descend {b next : BlockId} {passed ahead : List BlockId} {below : List Frame}
      (top : s.frames = ⟨b, passed, next :: ahead⟩ :: below) (fresh : s.Fresh next) :
      Move g s ((s.withFrames (⟨b, next :: passed, ahead⟩ :: below)).enter g next)
  | close {b next : BlockId} {passed ahead : List BlockId} {below : List Frame} {position : Nat}
      (top : s.frames = ⟨b, passed, next :: ahead⟩ :: below)
      (active : s.marks[next.index]? = some (.active position)) :
      Move g s ((s.withFrames (⟨b, next :: passed, ahead⟩ :: below)).record b next position)
  | skip {b next : BlockId} {passed ahead : List BlockId} {below : List Frame}
      (top : s.frames = ⟨b, passed, next :: ahead⟩ :: below) (finished : s.Finished next) :
      Move g s (s.withFrames (⟨b, next :: passed, ahead⟩ :: below))
  | leave {b : BlockId} {passed : List BlockId} {below : List Frame}
      (top : s.frames = ⟨b, passed, []⟩ :: below) : Move g s (s.leave b below)

theorem path_enter : (s.enter g b).path.toList = s.path.toList ++ [b] := by
  rw [enter, Array.toList_push]

theorem AtEdge.eq_of_top {next : BlockId} {passed ahead : List BlockId} {below : List Frame}
    (edge : s.AtEdge u v) (top : s.frames = ⟨b, passed, next :: ahead⟩ :: below) :
    u = b ∧ v = next := by
  obtain ⟨_, _, _, at_top⟩ := edge
  rw [top] at at_top
  injection at_top with frame
  injection frame with block _ edges
  injection edges with target
  exact ⟨block.symm, target.symm⟩

theorem Fresh.lt_size (h : s.Fresh b) : b.index < s.marks.size :=
  (Array.getElem?_eq_some_iff.mp h).1

theorem Fresh.not_finished (h : s.Fresh b) : ¬ s.Finished b := by
  intro finished
  rw [Fresh, finished] at h
  cases h

theorem fresh_withFrames {frames : List Frame} :
    (s.withFrames frames).Fresh b ↔ s.Fresh b := Iff.rfl

theorem fresh_enter (hb : s.Fresh b) {c : BlockId} :
    (s.enter g b).Fresh c ↔ s.Fresh c ∧ c.index ≠ b.index := by
  have inside := hb.lt_size
  by_cases h : b.index = c.index
  · simp [Fresh, enter, ← h, inside]
  · simp [Fresh, enter, Array.getElem?_setIfInBounds_ne h, Ne.symm h]

theorem not_fresh_enter (hb : s.Fresh b) : ¬ (s.enter g b).Fresh b :=
  fun now => ((fresh_enter hb).mp now).2 rfl

theorem eq_of_entered (owned : g.Owns b) (hb : s.Fresh b) {c : BlockId} (hc : g.Owns c)
    (before : s.Fresh c) (entered : ¬ (s.enter g b).Fresh c) : c = b := by
  rw [fresh_enter hb] at entered
  exact hc.eq_of_index owned (by_contra fun ne => entered ⟨before, ne⟩)

theorem finished_enter (hb : s.Fresh b) {c : BlockId} :
    (s.enter g b).Finished c ↔ s.Finished c := by
  have inside := hb.lt_size
  by_cases h : b.index = c.index
  · have not_finished := hb.not_finished
    simp_all [Finished, enter]
  · simp [Finished, enter, Array.getElem?_setIfInBounds_ne h]

theorem fresh_leave {below : List Frame} (hb : ¬ s.Fresh b) {c : BlockId} :
    (s.leave b below).Fresh c ↔ s.Fresh c := by
  by_cases h : b.index = c.index
  · rw [Fresh, h] at hb
    simp only [Fresh, leave, h, Array.getElem?_setIfInBounds_self, hb, iff_false]
    split <;> simp
  · simp [Fresh, leave, Array.getElem?_setIfInBounds_ne h]

theorem finished_leave {below : List Frame} (inside : b.index < s.marks.size) {c : BlockId} :
    (s.leave b below).Finished c ↔ s.Finished c ∨ c.index = b.index := by
  by_cases h : b.index = c.index
  · simp [Finished, leave, ← h, inside]
  · simp [Finished, leave, Array.getElem?_setIfInBounds_ne h, Ne.symm h]

end Search
end FlowLoops
