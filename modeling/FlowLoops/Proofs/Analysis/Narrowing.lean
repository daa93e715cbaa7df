import FlowLoops.Proofs.Analysis.Schedule

/-! Runs in sequence under two limits of the log, one of which lets everything through. They come to
the same results, and the other log has just those of the records that its limit lets through. -/

namespace FlowLoops

namespace Trace
variable {limit : Level} {t t' : Trace}

/-- A log is what its limit lets through of another, which lets everything through. -/
structure Narrows (limit : Level) (t t' : Trace) : Prop where
  limit_eq : t.limit = some limit
  limit_eq' : t'.limit = some .trace
  traced : t.silent = false
  traced' : t'.silent = false
  depth : t.depth = t'.depth
  records : t.records.toList = t'.records.toList.filter (·.level ≤ limit)

theorem Narrows.emit (h : Narrows limit t t') (level : Level) (message : String) :
    Narrows limit (t.emit level message) (t'.emit level message) := by
  refine ⟨?_, ?_, ?_, ?_, ?_, ?_⟩
  · rw [limit_emit, h.limit_eq]
  · rw [limit_emit, h.limit_eq']
  · rw [silent_emit, h.traced]
  · rw [silent_emit, h.traced']
  · rw [depth_emit, depth_emit, h.depth]
  · -- the full log takes the record in any case, and the filter asks what the limit asks
    rw [records_emit h.limit_eq, records_emit h.limit_eq', if_pos level.le_trace, h.records,
      List.filter_append]
    by_cases through : level ≤ limit <;> simp [through]

theorem Narrows.emitAll (h : Narrows limit t t') (lines : List Record) :
    Narrows limit (t.emitAll lines) (t'.emitAll lines) := by
  induction lines generalizing t t' with
  | nil => exact h
  | cons line rest ih => exact ih (h.emit line.level line.message)

theorem Narrows.detect (h : Narrows limit t t') (g : Graph) :
    Narrows limit (t.detect g).1 (t'.detect g).1 := by
  rw [detect_fst h.traced, detect_fst h.traced', h.depth]
  exact h.emitAll _

end Trace

namespace Run
variable {limit : Level} {run run' : Run} {α β : Type}

structure Narrows (limit : Level) (run run' : Run) : Prop where
  nextTag : run.nextTag = run'.nextTag
  trace : run.trace.Narrows limit run'.trace

structure Narrowed (limit : Level) (x y : Run × Except Failure α) : Prop where
  runs : x.1.Narrows limit y.1
  same : x.2 = y.2

theorem narrows_start (limit : Level) :
    Narrows limit (start (some limit) false) (start (some .trace) false) :=
  ⟨rfl, rfl, rfl, rfl, rfl, rfl, rfl⟩

theorem Narrows.emit (h : Narrows limit run run') (level : Level) (message : String) :
    Narrows limit (run.emit level message) (run'.emit level message) :=
  ⟨h.nextTag, h.trace.emit level message⟩

theorem Narrowed.andThen {x y : Run × Except Failure α} {f : Run → α → Run × Except Failure β}
    (h : Narrowed limit x y)
    (next : ∀ run run' a, Narrows limit run run' → Narrowed limit (f run a) (f run' a)) :
    Narrowed limit (andThen x f) (andThen y f) := by
  obtain ⟨run, result⟩ := x
  obtain ⟨run', result'⟩ := y
  obtain ⟨runs, same⟩ := h
  obtain rfl : result = result' := same
  cases result with
  | error e => exact ⟨runs, rfl⟩
  | ok a => exact next run run' a runs

variable {access : Access} {path : Path} {inputs : List Path}

theorem Narrows.load (h : Narrows limit run run') :
    Narrowed limit (run.load access path) (run'.load access path) := by
  unfold Run.load
  cases describe access path with
  | error e => exact ⟨h, rfl⟩
  | ok d =>
    refine ⟨⟨congrArg (· + 1) h.nextTag, h.trace⟩, ?_⟩
    simp only [h.nextTag]

theorem Narrows.examine (h : Narrows limit run run') (g : Graph) :
    Narrowed limit (run.examine path g) (run'.examine path g) := by
  have noted := h.emit .debug s!"{path.display}: {g.blockCount} blocks, {g.edgeCount} edges"
  refine ⟨⟨h.nextTag, noted.trace.detect g⟩, ?_⟩
  rw [examine_snd, examine_snd]

theorem Narrows.reportOn (h : Narrows limit run run') :
    Narrowed limit (run.reportOn access path) (run'.reportOn access path) :=
  h.load.andThen fun _ _ g runs => runs.examine g

theorem Narrows.analyzeInOrder (h : Narrows limit run run') :
    Narrowed limit (analyzeInOrder access run inputs) (analyzeInOrder access run' inputs) := by
  induction inputs generalizing run run' with
  | nil => exact ⟨h, rfl⟩
  | cons path rest ih =>
    refine h.reportOn.andThen fun run run' report runs => ?_
    exact (ih runs).andThen fun _ _ _ runs => ⟨runs, rfl⟩

theorem Narrows.analyze (h : Narrows limit run run') :
    Narrowed limit (run.analyze access inputs false) (run'.analyze access inputs false) :=
  h.analyzeInOrder.andThen fun _ _ _ runs => ⟨runs.emit _ _, rfl⟩

end Run
end FlowLoops
