import FlowLoops.Proofs.Json.Layout

/-! Numbers that are read over: just the numbers of the grammar, each up to where it stops. -/

namespace FlowLoops.Json
variable {cs ds rest sign : List Char}

theorem not_isDigit_of_stops (stops : Stops rest) : ∀ c ∈ rest.head?, ¬ c.isDigit :=
  fun c hc digit => stops c hc (.inl digit)

theorem dropDigits_append (digits : ∀ c ∈ ds, c.isDigit)
    (stop : ∀ c ∈ rest.head?, ¬ c.isDigit) : (ds ++ rest).dropWhile Char.isDigit = rest := by
  rw [List.dropWhile_append_of_pos digits]
  cases rest with
  | nil => rfl
  | cons c rest => exact List.dropWhile_cons_of_neg (stop c rfl)

theorem exists_digits_cons {d : Char} (digit : d.isDigit) (more : List Char) :
    Digits (d :: more.takeWhile Char.isDigit) ∧
      d :: more = (d :: more.takeWhile Char.isDigit) ++ more.dropWhile Char.isDigit := by
  refine ⟨⟨List.cons_ne_nil _ _, List.forall_mem_cons.mpr ⟨digit, fun c hc => ?_⟩⟩, ?_⟩
  · exact List.mem_takeWhile_imp hc
  · rw [List.cons_append, List.takeWhile_append_dropWhile]

theorem skipExponent_append (signed : sign = [] ∨ sign = ['+'] ∨ sign = ['-'])
    (digits : Digits ds) (stops : Stops rest) : skipExponent (sign ++ (ds ++ rest)) = .ok rest := by
  obtain ⟨d, more, rfl, digit, others⟩ := digits.eq_cons
  have after : (more ++ rest).dropWhile Char.isDigit = rest :=
    dropDigits_append others (not_isDigit_of_stops stops)
  rcases signed with rfl | rfl | rfl
  · have plus : d ≠ '+' := by rintro rfl; cases digit
    have minus : d ≠ '-' := by rintro rfl; cases digit
    simp [skipExponent, plus, minus, digit, after]
  · simp [skipExponent, digit, after]
  · simp [skipExponent, digit, after]

theorem exists_exponent (h : skipExponent cs = .ok rest) : ∃ sign ds,
    (sign = [] ∨ sign = ['+'] ∨ sign = ['-']) ∧ Digits ds ∧ cs = sign ++ (ds ++ rest) := by
  unfold skipExponent at h
  extract_lets digits at h
  have signs : ∃ sign, (sign = [] ∨ sign = ['+'] ∨ sign = ['-']) ∧ cs = sign ++ digits := by
    unfold digits
    split
    · exact ⟨['+'], .inr (.inl rfl), rfl⟩
    · exact ⟨['-'], .inr (.inr rfl), rfl⟩
    · exact ⟨[], .inl rfl, rfl⟩
  obtain ⟨sign, signed, whole⟩ := signs
  clear_value digits
  split at h
  · cases h
  next c more =>
    split at h
    next digit =>
      obtain rfl := Except.ok.inj h
      obtain ⟨shown, split⟩ := exists_digits_cons digit more
      rw [split] at whole
      exact ⟨sign, _, signed, shown, whole⟩
    · cases h

theorem IsExponent.stop {exponent : List Char} (he : IsExponent exponent) (stops : Stops rest) :
    ∀ c ∈ (exponent ++ rest).head?, ¬ c.isDigit ∧ c ≠ '.' := by
  cases he with
  | none =>
    intro c hc
    refine ⟨not_isDigit_of_stops stops c hc, ?_⟩
    rintro rfl
    exact stops _ hc (.inr (by decide))
  | some letter => rcases letter with rfl | rfl <;> rintro c ⟨⟩ <;> decide

theorem skipNumberTail_exponent {exponent : List Char} (he : IsExponent exponent)
    (stops : Stops rest) : skipNumberTail (exponent ++ rest) = .ok rest := by
  cases he with
  | none =>
    rw [List.nil_append]
    unfold skipNumberTail
    split
    next more => exact absurd (.inr (by decide)) (stops '.' rfl)
    next more => exact absurd (.inr (by decide)) (stops 'e' rfl)
    next more => exact absurd (.inr (by decide)) (stops 'E' rfl)
    · rfl
  | @some e sign ds letter signed digits =>
    have shown := skipExponent_append signed digits stops
    rw [← List.append_assoc] at shown
    rcases letter with rfl | rfl <;> exact shown

theorem skipNumberTail_point {d : Char} {more : List Char} (digit : d.isDigit)
    (others : ∀ c ∈ more, c.isDigit) (stop : ∀ c ∈ rest.head?, ¬ c.isDigit ∧ c ≠ '.') :
    skipNumberTail ('.' :: d :: (more ++ rest)) = skipNumberTail rest := by
  have after : (more ++ rest).dropWhile Char.isDigit = rest :=
    dropDigits_append others fun c hc => (stop c hc).1
  simp only [skipNumberTail, if_pos digit, after]
  cases rest with
  | nil => rfl
  | cons c rest =>
    have point : c ≠ '.' := (stop c rfl).2
    split <;> simp_all

theorem skipNumberTail_append {fraction exponent : List Char} (hf : IsFraction fraction)
    (he : IsExponent exponent) (stops : Stops rest) :
    skipNumberTail (fraction ++ (exponent ++ rest)) = .ok rest := by
  cases hf with
  | none => exact skipNumberTail_exponent he stops
  | some digits =>
    obtain ⟨d, more, rfl, digit, others⟩ := digits.eq_cons
    exact (skipNumberTail_point digit others (he.stop stops)).trans
      (skipNumberTail_exponent he stops)

theorem exists_lettered {e : Char} {tail : List Char} (letter : e = 'e' ∨ e = 'E')
    (h : skipExponent tail = .ok rest) :
    ∃ exponent, IsExponent exponent ∧ e :: tail = exponent ++ rest := by
  obtain ⟨sign, ds, signed, digits, rfl⟩ := exists_exponent h
  refine ⟨e :: sign ++ ds, .some letter signed digits, ?_⟩
  rw [List.cons_append, List.cons_append, List.append_assoc]

theorem exists_numberTail (h : skipNumberTail cs = .ok rest) : ∃ fraction exponent,
    IsFraction fraction ∧ IsExponent exponent ∧ cs = fraction ++ (exponent ++ rest) := by
  unfold skipNumberTail at h
  split at h
  next after =>
    split at h
    · cases h
    next d more =>
      split at h
      next digit =>
        obtain ⟨digits, shown⟩ := exists_digits_cons digit more
        have split : ∃ exponent, IsExponent exponent ∧
            more.dropWhile Char.isDigit = exponent ++ rest := by
          split at h
          next tail ht =>
            rw [ht]
            exact exists_lettered (.inl rfl) h
          next tail ht =>
            rw [ht]
            exact exists_lettered (.inr rfl) h
          · exact ⟨[], .none, Except.ok.inj h⟩
        obtain ⟨exponent, he, left⟩ := split
        refine ⟨'.' :: d :: more.takeWhile Char.isDigit, exponent, .some digits, he, ?_⟩
        rw [shown, left]
        rfl
      · cases h
  next tail =>
    obtain ⟨exponent, he, shown⟩ := exists_lettered (.inl rfl) h
    exact ⟨[], exponent, .none, he, shown⟩
  next tail =>
    obtain ⟨exponent, he, shown⟩ := exists_lettered (.inr rfl) h
    exact ⟨[], exponent, .none, he, shown⟩
  · obtain rfl := Except.ok.inj h
    exact ⟨[], [], .none, .none, rfl⟩

theorem skipNumber_append {whole fraction exponent : List Char} (digits : Digits whole)
    (lead : whole.head? = some '0' → whole = ['0']) (hf : IsFraction fraction)
    (he : IsExponent exponent) (stops : Stops rest) :
    skipNumber (whole ++ (fraction ++ (exponent ++ rest))) = .ok rest := by
  have tail : skipNumberTail (fraction ++ (exponent ++ rest)) = .ok rest :=
    skipNumberTail_append hf he stops
  have stop : ∀ c ∈ (fraction ++ (exponent ++ rest)).head?, ¬ c.isDigit := by
    cases hf with
    | none => exact fun c hc => (he.stop stops c hc).1
    | some digits =>
      rintro c ⟨⟩
      decide
  obtain ⟨d, more, rfl, digit, others⟩ := digits.eq_cons
  unfold skipNumber
  by_cases zero : d = '0'
  · subst zero
    obtain rfl := (List.cons.inj (lead rfl)).2
    have alone : ¬ (fraction ++ (exponent ++ rest)).head?.any Char.isDigit := by
      rw [Option.any_eq_true]
      exact fun ⟨c, hc, digit⟩ => stop c hc digit
    simp only [List.cons_append, List.nil_append]
    rw [if_pos trivial, if_neg alone, tail]
  · simp only [List.cons_append]
    rw [if_neg zero, if_pos digit, dropDigits_append others stop, tail]

theorem exists_number (h : skipNumber cs = .ok rest) : ∃ whole fraction exponent, Digits whole ∧
    (whole.head? = some '0' → whole = ['0']) ∧ IsFraction fraction ∧ IsExponent exponent ∧
      cs = whole ++ (fraction ++ (exponent ++ rest)) := by
  unfold skipNumber at h
  split at h
  · cases h
  next d more =>
    split at h
    next zero =>
      subst zero
      split at h
      · cases h
      · obtain ⟨fraction, exponent, hf, he, rfl⟩ := exists_numberTail h
        refine ⟨['0'], fraction, exponent, ⟨List.cons_ne_nil _ _, ?_⟩, fun _ => rfl, hf, he, rfl⟩
        exact List.forall_mem_singleton.mpr rfl
    next nonzero =>
      split at h
      next digit =>
        obtain ⟨digits, shown⟩ := exists_digits_cons digit more
        obtain ⟨fraction, exponent, hf, he, left⟩ := exists_numberTail h
        refine ⟨_, fraction, exponent, digits, fun zero => ?_, hf, he, left ▸ shown⟩
        exact absurd (Option.some.inj zero) nonzero
      · cases h

end FlowLoops.Json
