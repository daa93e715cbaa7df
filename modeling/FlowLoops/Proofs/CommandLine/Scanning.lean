import FlowLoops.CommandLine.Arguments
import Mathlib.Tactic.SplitIfs

/-! How arguments are scanned. What was taken stays in front of what is taken later and has no part
in how that is taken, so arguments put first add to a request what they stand for. -/

namespace FlowLoops.CommandLine

def Given.after (g t : Given) : Given := ⟨t.uses + g.uses, t.values ++ g.values⟩

namespace Scan
variable {s t : Scan}

def after (s t : Scan) : Scan where
  verbosity := t.verbosity + s.verbosity
  format := s.format.after t.format
  output := s.output.after t.output
  inputs := t.inputs ++ s.inputs
  awaiting := s.awaiting

theorem addValue_after (setting : Setting) (value : String) :
    (s.after t).addValue setting value = (s.addValue setting value).after t := by
  cases setting <;> simp [addValue, update, after, Given.after]

theorem addUse_after (setting : Setting) (value : Option (List Char)) :
    (s.after t).addUse setting value = (s.addUse setting value).after t := by
  have used : (s.after t).update (fun g => { g with uses := g.uses + 1 }) setting =
      (s.update (fun g => { g with uses := g.uses + 1 }) setting).after t := by
    cases setting <;> rfl
  cases value with
  | none => cases setting <;> rfl
  | some v =>
    show addValue (update (s.after t) _ setting) setting _ = _
    rw [used, addValue_after]
    rfl

theorem addLetters_after (letters : List Char) :
    (s.after t).addLetters letters = (s.addLetters letters).map (·.after t) := by
  induction letters generalizing s with
  | nil => rfl
  | cons c rest ih =>
    have flag : (s.after t).addVerbose = s.addVerbose.after t := rfl
    simp only [addLetters, addUse_after, flag, ih]
    split_ifs <;> rfl

theorem addWord_after (word : List Char) :
    (s.after t).addWord word = (s.addWord word).map (·.after t) := by
  have flag : (s.after t).addVerbose = s.addVerbose.after t := rfl
  simp only [addWord, addUse_after, flag]
  split_ifs <;> rfl

theorem addInput_after (input : String) :
    (s.after t).addInput input = (s.addInput input).after t := by
  rw [addInput, addInput, after, after, List.append_assoc]

theorem addArgument_after (argument : String) :
    (s.after t).addArgument argument = (s.addArgument argument).map (·.after t) := by
  unfold addArgument
  split
  · exact addWord_after _
  · exact addLetters_after _
  · have awaiting : (s.after t).awaiting = s.awaiting := rfl
    rw [awaiting]
    cases s.awaiting with
    | none => exact congrArg Except.ok (addInput_after argument)
    | some setting => exact congrArg Except.ok (addValue_after setting argument)

theorem foldl_addInput_after (inputs : List String) :
    inputs.foldl addInput (s.after t) = (inputs.foldl addInput s).after t := by
  induction inputs generalizing s with
  | nil => rfl
  | cons input rest ih => rw [List.foldl_cons, List.foldl_cons, addInput_after, ih]

theorem addAll_after (arguments : List String) :
    (s.after t).addAll arguments = (s.addAll arguments).map (·.after t) := by
  induction arguments generalizing s with
  | nil => rfl
  | cons argument rest ih =>
    rw [addAll, addAll, addArgument_after, foldl_addInput_after]
    by_cases dashes : argument = "--"
    · rw [if_pos dashes, if_pos dashes]
      rfl
    · rw [if_neg dashes, if_neg dashes]
      cases s.addArgument argument with
      | error intent => rfl
      | ok next => exact ih

theorem addAll_append {front : List String} (apart : "--" ∉ front) (s : Scan)
    (rest : List String) : s.addAll (front ++ rest) = (s.addAll front).bind (·.addAll rest) := by
  induction front generalizing s with
  | nil => rfl
  | cons argument front ih =>
    rw [List.mem_cons, not_or] at apart
    obtain ⟨other, apart⟩ := apart
    rw [List.cons_append, addAll, addAll, if_neg (Ne.symm other), if_neg (Ne.symm other)]
    cases s.addArgument argument with
    | error intent => rfl
    | ok next => exact ih apart next

/-- Where nothing is due after the first arguments, the others are scanned as if they were alone. -/
theorem addAll_start_append {front : List String} (apart : "--" ∉ front)
    (taken : start.addAll front = .ok t) (idle : t.awaiting = none) (rest : List String) :
    start.addAll (front ++ rest) = (start.addAll rest).map (·.after t) := by
  have behind : start.after t = t := by
    obtain ⟨verbosity, ⟨uses, values⟩, ⟨uses', values'⟩, inputs, awaiting⟩ := t
    obtain rfl : awaiting = none := idle
    simp [start, after, Given.after]
  rw [addAll_append apart, taken, ← addAll_after, behind]
  rfl

theorem addLetters_ne_run (letters : List Char) (r : Request) :
    s.addLetters letters ≠ .error (.run r) := by
  induction letters generalizing s with
  | nil => exact nofun
  | cons c rest ih =>
    rw [addLetters]
    split_ifs <;> first | exact ih | simp

theorem addArgument_ne_run (argument : String) (r : Request) :
    s.addArgument argument ≠ .error (.run r) := by
  unfold addArgument
  split
  · simp only [addWord]
    split_ifs <;> simp
  · exact addLetters_ne_run _ r
  · split <;> simp

theorem addAll_ne_run (arguments : List String) (r : Request) :
    s.addAll arguments ≠ .error (.run r) := by
  induction arguments generalizing s with
  | nil => exact nofun
  | cons argument rest ih =>
    rw [addAll]
    split_ifs
    · exact nofun
    · have first := @addArgument_ne_run s argument r
      cases added : s.addArgument argument with
      | error intent => rwa [added] at first
      | ok next => exact ih

end Scan

theorem ofArguments_eq_run {arguments : List String} {r : Request} :
    Intent.ofArguments arguments = .run r ↔
      ∃ s, Scan.start.addAll arguments = .ok s ∧ s.misuse? = none ∧ s.request = r := by
  unfold Intent.ofArguments
  cases scanned : Scan.start.addAll arguments with
  | error intent =>
    refine ⟨fun accepted => ?_, fun ⟨s, made, _⟩ => nomatch made⟩
    obtain rfl : intent = .run r := accepted
    exact absurd scanned (Scan.addAll_ne_run arguments r)
  | ok s =>
    dsimp only
    constructor
    · intro accepted
      split at accepted
      · cases accepted
      next fine => exact ⟨s, rfl, fine, Intent.run.inj accepted⟩
    · rintro ⟨_, made, fine, rfl⟩
      obtain rfl := Except.ok.inj made
      rw [fine]

section Option
variable {arguments : List String} {r : Request} {value : String}

def Scan.directed (value : String) : Scan := { start with output := ⟨1, [value]⟩ }

theorem addAll_output (plain : value.toList.head? ≠ some '-') :
    Scan.start.addAll ["-o", value] = .ok (.directed value) := by
  have other : value ≠ "--" := by
    rintro rfl
    exact absurd plain (by decide)
  have option : Scan.start.addArgument "-o" =
      .ok { Scan.start with output := ⟨1, []⟩, awaiting := some .output } := rfl
  have added : Scan.addArgument { Scan.start with output := ⟨1, []⟩, awaiting := some .output }
      value = .ok (.directed value) := by
    unfold Scan.addArgument
    split
    next shape => simp [shape] at plain
    next shape => simp [shape] at plain
    · rfl
  rw [Scan.addAll, if_neg (by decide), option]
  show Scan.addAll _ [value] = _
  rw [Scan.addAll, if_neg other, added]
  rfl

theorem ofArguments_output
    (accepted : Intent.ofArguments arguments = .run { r with output := none })
    (plain : value.toList.head? ≠ some '-') :
    Intent.ofArguments ("-o" :: value :: arguments) =
      .run { r with output := some (.ofString value) } := by
  obtain ⟨s, scanned, fine, same⟩ := ofArguments_eq_run.mp accepted
  have silent : s.output.values = [] := by
    have none := congrArg Request.output same
    simpa [Scan.request] using none
  have apart : "--" ∉ ["-o", value] := by
    rw [List.mem_cons, List.mem_singleton, not_or]
    refine ⟨by decide, ?_⟩
    rintro rfl
    exact absurd plain (by decide)
  have format : (s.after (.directed value)).format = s.format := by
    simp [Scan.after, Given.after, Scan.directed, Scan.start]
  have output : (s.after (.directed value)).output = ⟨1 + s.output.uses, [value]⟩ := by
    simp [Scan.after, Given.after, Scan.directed, silent]
  refine ofArguments_eq_run.mpr ⟨s.after (.directed value), ?_, ?_, ?_⟩
  · have whole := Scan.addAll_start_append apart (addAll_output plain) rfl arguments
    rw [scanned] at whole
    exact whole
  · have inputs : (s.after (.directed value)).inputs = s.inputs := rfl
    rw [Scan.misuse?] at fine ⊢
    rw [inputs, format, output]
    split_ifs at fine with noInputs missing bad repeated missing' repeated'
    have unused : s.output.uses = 0 := by
      rw [not_and] at missing'
      exact Nat.eq_zero_of_not_pos fun used => missing' used silent
    rw [if_neg noInputs, if_neg (by simp), if_neg bad, if_neg repeated, if_neg (by simp),
      if_neg (by simp [unused])]
  · have others : (s.after (.directed value)).request =
        { s.request with output := some (.ofString value) } := by
      rw [Scan.request, Scan.request, format, output]
      simp [Scan.after, Scan.directed, Scan.start]
    rw [others, same]

end Option

end FlowLoops.CommandLine
