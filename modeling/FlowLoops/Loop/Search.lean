import FlowLoops.Graph.Basic
import FlowLoops.Loop.Basic

/-!
The depth-first search for loops. An edge into a block on the active path closes a loop: the part of
the path from that block on, and the block once more. The search keeps its own stack of frames and
goes one step at a time. Each step takes one unit off the pending work, which is the steps due to
the blocks not yet seen and to the frames on the stack, and so the search ends.
-/

namespace FlowLoops

inductive Mark where
  | fresh
  /-- on the active path, at this position -/
  | active (position : Nat)
  | finished
deriving DecidableEq, Repr, Inhabited

/-- A block under exploration, its successors split where the search stands: those passed, latest
first, and those ahead. -/
structure Frame where
  block : BlockId
  passed : List BlockId
  ahead : List BlockId
deriving DecidableEq, Repr

structure BackEdge where
  latch : BlockId
  header : BlockId
deriving DecidableEq, Repr

/-- The state of the search. Frames are listed from the top of the stack down; back edges and their
loops in the order of discovery. -/
structure Search where
  marks : Array Mark
  path : Array BlockId
  frames : List Frame
  backEdges : Array BackEdge
  loops : Array Loop
deriving DecidableEq, Repr

namespace Search

def initial (g : Graph) : Search := ⟨Array.replicate g.blockCount .fresh, #[], [], #[], #[]⟩

def descend (g : Graph) (s : Search) (b : BlockId) : Except Fault Search :=
  match g.successors b with
  | .error fault => .error fault
  | .ok successors =>
    if h : b.index < s.marks.size then
      .ok { s with
        marks := s.marks.set b.index (.active s.path.size)
        path := s.path.push b
        frames := ⟨b, [], successors⟩ :: s.frames }
    else .error (.outOfRange b.index s.marks.size)

def retreat (s : Search) : Except Fault Search :=
  match s.frames with
  | [] => .ok s
  | frame :: below =>
    if h : frame.block.index < s.marks.size then
      .ok { s with
        marks := s.marks.set frame.block.index .finished
        path := s.path.pop
        frames := below }
    else .error (.outOfRange frame.block.index s.marks.size)

/-- Looks at one edge: into the path it closes a loop, to a new block the search goes on there, and
to a block that is done nothing is left to do. -/
def follow (g : Graph) (s : Search) (current next : BlockId) : Except Fault Search :=
  match s.marks[next.index]? with
  | none => .error (.outOfRange next.index s.marks.size)
  | some (.active position) =>
    if position ≤ s.path.size then
      .ok { s with
        backEdges := s.backEdges.push ⟨current, next⟩
        loops := s.loops.push ⟨(s.path.extract position).toList ++ [next]⟩ }
    else .error (.outOfRange position s.path.size)
  | some .fresh => s.descend g next
  | some .finished => .ok s

def step (g : Graph) (s : Search) : Except Fault Search :=
  match s.frames with
  | [] => .ok s
  | ⟨_, _, []⟩ :: _ => s.retreat
  | ⟨current, passed, next :: ahead⟩ :: below =>
    { s with frames := ⟨current, next :: passed, ahead⟩ :: below }.follow g current next

/-- The steps due to the unvisited blocks of a list of marks, where `cost` gives them by index. -/
def unseen (cost : Nat → Nat) : Nat → List Mark → Nat
  | _, [] => 0
  | i, m :: rest => (if m = .fresh then cost i else 0) + unseen cost (i + 1) rest

def cost (g : Graph) (index : Nat) : Nat :=
  ((g.blocks[index]?).elim 0 fun b => b.outgoing.size) + 1

/-- The steps still to go: those of the blocks not yet seen and those of the frames. -/
def pending (g : Graph) (s : Search) : Nat :=
  unseen (cost g) 0 s.marks.toList + s.frames.foldr (fun f n => f.ahead.length + 1 + n) 0

theorem unseen_set (cost : Nat → Nat) (m : Mark) {marks : List Mark} {k : Nat} (start : Nat)
    (h : k < marks.length) :
    unseen cost start (marks.set k m) + (if marks[k] = .fresh then cost (start + k) else 0) =
      unseen cost start marks + (if m = .fresh then cost (start + k) else 0) := by
  induction marks generalizing k start with
  | nil => simp at h
  | cons x rest ih =>
    cases k with
    | zero => simp [unseen]; omega
    | succ k =>
      have := ih (start + 1) (by simpa using h)
      simp only [List.set_cons_succ, unseen, List.getElem_cons_succ]
      rw [show start + (k + 1) = start + 1 + k by omega]
      omega

theorem unseen_marks_set (g : Graph) (marks : Array Mark) (m : Mark) {k : Nat}
    (h : k < marks.size) (hm : m ≠ .fresh) :
    unseen (cost g) 0 (marks.set k m).toList + (if marks[k] = .fresh then cost g k else 0) =
      unseen (cost g) 0 marks.toList := by
  have := @unseen_set (cost g) m marks.toList k 0 (by simpa using h)
  simpa [hm] using this

theorem length_successors {g : Graph} {b : BlockId} {l : List BlockId}
    (h : g.successors b = .ok l) : l.length + 1 = cost g b.index := by
  unfold Graph.successors Graph.block at h
  split at h
  case isTrue owned =>
    simp only [Except.map, Except.ok.injEq] at h
    subst h
    simp [cost, Array.getElem?_eq_getElem owned.2]
  case isFalse => simp [Except.map] at h

theorem pending_descend {g : Graph} {s t : Search} {b : BlockId} (h : s.descend g b = .ok t)
    (fresh : s.marks[b.index]? = some .fresh) : t.pending g = s.pending g := by
  unfold descend at h
  split at h
  · simp at h
  next successors hs =>
    split at h
    next hb =>
      simp only [Except.ok.injEq] at h
      subst h
      have hlen := length_successors hs
      have hset := unseen_marks_set g s.marks (.active s.path.size) hb (by simp)
      rw [Array.getElem?_eq_getElem hb, Option.some.injEq] at fresh
      simp only [fresh, if_true] at hset
      simp only [pending, List.foldr_cons]
      omega
    · simp at h

theorem pending_follow_le {g : Graph} {s t : Search} {current next : BlockId}
    (h : s.follow g current next = .ok t) : t.pending g ≤ s.pending g := by
  unfold follow at h
  split at h
  · simp at h
  · split at h
    · simp only [Except.ok.injEq] at h
      subst h
      exact Nat.le_refl _
    · simp at h
  next fresh => exact Nat.le_of_eq (pending_descend h fresh)
  · simp only [Except.ok.injEq] at h
    subst h
    exact Nat.le_refl _

theorem pending_step_lt {g : Graph} {s t : Search} (busy : s.frames ≠ []) (h : s.step g = .ok t) :
    t.pending g < s.pending g := by
  unfold step at h
  split at h
  next hf => exact absurd hf busy
  next block passed below hf =>
    unfold retreat at h
    simp only [hf] at h
    split at h
    next hb =>
      simp only [Except.ok.injEq] at h
      subst h
      have hset := unseen_marks_set g s.marks .finished hb (by simp)
      simp only [pending, hf, List.foldr_cons]
      omega
    · simp at h
  next current passed next ahead below hf =>
    refine Nat.lt_of_le_of_lt (pending_follow_le h) ?_
    simp only [pending, hf, List.foldr_cons, List.length_cons]
    omega

def exhaust (g : Graph) (s : Search) : Except Fault Search :=
  if _busy : s.frames = [] then .ok s
  else match _h : s.step g with
    | .error fault => .error fault
    | .ok next => next.exhaust g
termination_by s.pending g
decreasing_by exact pending_step_lt _busy _h

def explore (g : Graph) (s : Search) (root : BlockId) : Except Fault Search :=
  match s.descend g root with
  | .error fault => .error fault
  | .ok entered => entered.exhaust g

def exploreAll (g : Graph) (s : Search) : List BlockId → Except Fault Search
  | [] => .ok s
  | root :: rest =>
    match s.marks[root.index]? with
    | none => .error (.outOfRange root.index s.marks.size)
    | some .fresh =>
      match s.explore g root with
      | .error fault => .error fault
      | .ok next => next.exploreAll g rest
    | some _ => s.exploreAll g rest

/-- The whole search: every block in creation order is a root unless it was visited before. -/
def ofGraph (g : Graph) : Except Fault Search := (initial g).exploreAll g g.handles

end Search

end FlowLoops
