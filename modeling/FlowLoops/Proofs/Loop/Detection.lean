import FlowLoops.Loop.Detection

/-! Detection as it is logged. The log does not bear on the loops, and the tracer of a detection is
closed at the depth at which it was opened. -/

namespace FlowLoops

theorem Level.le_trace (level : Level) : level ≤ .trace := by
  cases level <;> decide

namespace Trace
variable {t : Trace}

theorem emit_eq (t : Trace) (level : Level) (message : String) :
    t.emit level message = { t with records := (t.emit level message).records } := by
  unfold emit
  split
  · rfl
  · split <;> rfl

theorem depth_emit (level : Level) (message : String) : (t.emit level message).depth = t.depth := by
  rw [emit_eq]

theorem silent_emit (level : Level) (message : String) :
    (t.emit level message).silent = t.silent := by
  rw [emit_eq]

theorem limit_emit (level : Level) (message : String) : (t.emit level message).limit = t.limit := by
  rw [emit_eq]

theorem records_emit {limit : Level} (limited : t.limit = some limit) (level : Level) (message : String) :
    (t.emit level message).records.toList =
      t.records.toList ++ if level ≤ limit then [⟨level, message⟩] else [] := by
  simp only [emit, limited]
  split
  · exact Array.toList_push ..
  · exact (List.append_nil _).symm

theorem depth_note (tracer : Tracer) (event : String) : (t.note tracer event).depth = t.depth := by
  unfold note
  split
  · rfl
  · exact depth_emit _ _

theorem depth_noteBackEdges (tracer : Tracer) (found : Array BackEdge) :
    (t.noteBackEdges tracer found).depth = t.depth := by
  rw [noteBackEdges, ← Array.foldl_toList]
  induction found.toList generalizing t with
  | nil => rfl
  | cons e rest ih => rw [List.foldl_cons, ih, depth_note]

theorem leave_enter {opened : Trace} {title : String}
    (depth : opened.depth = (t.enter title).1.depth) :
    (opened.leave (t.enter title).2).2 = .ok () := by
  unfold enter at depth ⊢
  split
  · rfl
  next traced =>
    rw [if_neg traced, depth_emit] at depth
    exact if_pos depth

theorem detect_snd (t : Trace) (g : Graph) : (t.detect g).2 = g.loops := by
  unfold detect Graph.loops
  cases made : Search.ofGraph g with
  | error fault => rfl
  | ok search =>
    exact congrArg (Except.map fun _ => search.loops.toList)
      (leave_enter ((depth_emit _ _).trans (depth_noteBackEdges _ _)))

section Lines

/-! The lines of a log. A line is recorded if the limit of the log lets its level through, and it
never changes how deep tracers are nested. -/

def emitAll (t : Trace) (lines : List Record) : Trace :=
  lines.foldl (fun t line => t.emit line.level line.message) t

def atDepth (t : Trace) (depth : Nat) : Trace := { t with depth }

def enterLine (level : Nat) (title : String) : Record := ⟨.trace, indent level ++ "-> " ++ title⟩

def eventLine (level : Nat) (event : String) : Record := ⟨.trace, indent level ++ " " ++ event⟩

def leaveLine (level : Nat) (title : String) : Record := ⟨.trace, indent level ++ "<- " ++ title⟩

def detectTitle (g : Graph) : String := s!"detect loops over {g.blockCount} blocks"

/-- What is recorded of a search between the lines of its tracer. -/
def foundLines (level : Nat) (g : Graph) : List Record :=
  match Search.ofGraph g with
  | .error _ => []
  | .ok search =>
    search.backEdges.toList.map (fun e => eventLine level s!"back-edge {e.latch} -> {e.header}") ++
      [⟨.debug, s!"{search.loops.size} loop(s) found among {g.blockCount} blocks" ++
        s!" and {g.edgeCount} edges"⟩]

variable {lines more : List Record} {level depth : Nat} {title event : String}

theorem emitAll_append : t.emitAll (lines ++ more) = (t.emitAll lines).emitAll more :=
  List.foldl_append

theorem emit_emitAll (level : Level) (message : String) :
    (t.emitAll lines).emit level message = t.emitAll (lines ++ [⟨level, message⟩]) := by
  rw [emitAll_append]
  rfl

theorem emit_atDepth (level : Level) (message : String) :
    (t.atDepth depth).emit level message = (t.emit level message).atDepth depth := by
  obtain ⟨limit, silent, _, records⟩ := t
  cases limit with
  | none => rfl
  | some limit =>
    show (if level ≤ limit then _ else _) = atDepth (if level ≤ limit then _ else _) depth
    split <;> rfl

theorem emitAll_atDepth : (t.atDepth depth).emitAll lines = (t.emitAll lines).atDepth depth := by
  induction lines generalizing t with
  | nil => rfl
  | cons line rest ih =>
    show ((t.atDepth depth).emit line.level line.message).emitAll rest = _
    rw [emit_atDepth, ih]
    rfl

theorem depth_emitAll : (t.emitAll lines).depth = t.depth := by
  induction lines generalizing t with
  | nil => rfl
  | cons line rest ih => exact ih.trans (depth_emit _ _)

theorem silent_emitAll : (t.emitAll lines).silent = t.silent := by
  induction lines generalizing t with
  | nil => rfl
  | cons line rest ih => exact ih.trans (silent_emit _ _)

theorem records_emitAll {limit : Level} (limited : t.limit = some limit) (lines : List Record) :
    (t.emitAll lines).records.toList = t.records.toList ++ lines.filter (·.level ≤ limit) := by
  induction lines generalizing t with
  | nil => exact (List.append_nil _).symm
  | cons line rest ih =>
    have first := records_emit limited line.level line.message
    rw [List.filter_cons]
    refine (ih ((limit_emit _ _).trans limited)).trans ?_
    rw [first]
    by_cases through : line.level ≤ limit
    · simp [through]
    · simp [through]

theorem enter_traced (traced : t.silent = false) :
    t.enter title = ((t.emitAll [enterLine t.depth title]).atDepth (t.depth + 1),
      ⟨title, some t.depth⟩) := by
  have quiet : ¬ t.silent = true := by
    rw [traced]
    exact Bool.false_ne_true
  rw [enter, if_neg quiet]
  exact congrArg (·, _) (emit_atDepth _ _)

theorem note_lines (t : Trace) (tracer : Tracer) (event : String) :
    ∃ lines, t.note tracer event = t.emitAll lines := by
  obtain ⟨title, _ | level⟩ := tracer
  · exact ⟨[], rfl⟩
  · exact ⟨[eventLine level event], rfl⟩

theorem noteBackEdges_some {found : Array BackEdge} :
    t.noteBackEdges ⟨title, some level⟩ found =
      t.emitAll (found.toList.map fun e =>
        eventLine level s!"back-edge {e.latch} -> {e.header}") := by
  rw [noteBackEdges, emitAll, ← Array.foldl_toList, List.foldl_map]
  rfl

theorem leave_some_fst : (t.leave ⟨title, some level⟩).1 =
    (t.emitAll [leaveLine level title]).atDepth level := rfl

theorem leave_emitAll : (((t.emitAll lines).atDepth (t.depth + 1)).leave ⟨title, some t.depth⟩).1 =
    t.emitAll (lines ++ [leaveLine t.depth title]) := by
  rw [leave_some_fst, emitAll_atDepth, ← emitAll_append]
  have depth : (t.emitAll (lines ++ [leaveLine t.depth title])).depth = t.depth := depth_emitAll
  show (t.emitAll _).atDepth t.depth = _
  generalize t.emitAll (lines ++ [leaveLine t.depth title]) = after at depth ⊢
  rw [← depth]
  rfl

theorem detect_fst (traced : t.silent = false) (g : Graph) :
    (t.detect g).1 = t.emitAll (enterLine t.depth (detectTitle g) :: foundLines t.depth g ++
      [leaveLine t.depth (detectTitle g)]) := by
  have entered := @enter_traced t (detectTitle g) traced
  unfold detectTitle at entered ⊢
  unfold detect foundLines
  rw [entered]
  cases made : Search.ofGraph g with
  | error fault => exact leave_emitAll
  | ok search =>
    dsimp only
    rw [noteBackEdges_some, emitAll_atDepth, emit_atDepth, ← emitAll_append, emit_emitAll,
      List.singleton_append, List.cons_append]
    exact leave_emitAll

end Lines

end Trace

end FlowLoops
