import FlowLoops.Proofs.Json.Numeral
import FlowLoops.Proofs.Json.Spelling

/-! Reading over values. What is read over is just a value, with whatever brackets it has inside; the
stack of open brackets stands for what those brackets still need. -/

namespace FlowLoops.Json

section Scalars
variable {t : Token} {c : Char} {cs rest left : List Char}

theorem word_eq_ok_iff {w : List Char} : word w cs = .ok rest ↔ cs = w ++ rest := by
  induction w generalizing cs with
  | nil =>
    rw [word, List.nil_append]
    exact ⟨Except.ok.inj, congrArg _⟩
  | cons x ws ih =>
    cases cs with
    | nil => simp [word]
    | cons c cs =>
      rw [word, List.cons_append, List.cons.injEq]
      by_cases same : c = x
      · rw [if_pos same, ih]
        exact (and_iff_right same).symm
      · rw [if_neg same]
        refine ⟨fun h => ?_, fun h => absurd h.1 same⟩
        cases h

theorem skipScalar_of_isDigit (digit : c.isDigit) (rest : List Char) :
    skipScalar c rest = skipNumber (c :: rest) := by
  have other : ∀ d ∈ ['n', 't', 'f', '"', '-'], c ≠ d := by
    rintro d hd rfl
    have letters : ∀ d ∈ ['n', 't', 'f', '"', '-'], ¬ d.isDigit := by simp
    exact letters c hd digit
  unfold skipScalar
  rw [if_neg (other 'n' (by decide)), if_neg (other 't' (by decide)), if_neg (other 'f' (by decide)),
    if_neg (other '"' (by decide)), if_neg (other '-' (by decide)), if_pos digit]

def Token.Scalar : Token → Prop
  | null | bool _ | number _ | string _ => True
  | opening _ | closing _ | comma | colon => False

theorem skipScalar_text (scalar : t.Scalar) (stops : Stops rest) : ∃ c more, t.text = c :: more ∧
    c ≠ '[' ∧ c ≠ '\x7b' ∧ skipScalar c (more ++ rest) = .ok rest := by
  cases t with
  | null => exact ⟨_, _, rfl, by decide, by decide, word_eq_ok_iff.mpr rfl⟩
  | bool b => cases b <;> exact ⟨_, _, rfl, by decide, by decide, word_eq_ok_iff.mpr rfl⟩
  | string ps =>
    refine ⟨_, _, rfl, by decide, by decide, skipString_eq_ok_iff.mpr ⟨ps, ?_⟩⟩
    rw [List.append_assoc, List.singleton_append]
  | number n =>
    obtain ⟨text, valid⟩ := n
    cases valid with
    | @intro sign whole fraction exponent signed digits lead hf he =>
      have read := skipNumber_append digits lead hf he stops
      rcases signed with rfl | rfl
      · obtain ⟨d, more, rfl, digit, -⟩ := digits.eq_cons
        have other : ∀ c ∈ ['[', '\x7b'], d ≠ c := by
          rintro c hc rfl
          have brackets : ∀ c ∈ ['[', '\x7b'], ¬ c.isDigit := by simp
          exact brackets d hc digit
        refine ⟨d, more ++ (fraction ++ exponent), rfl, other _ (by decide), other _ (by decide), ?_⟩
        rw [skipScalar_of_isDigit digit]
        rw [List.append_assoc, List.append_assoc]
        exact read
      · refine ⟨'-', whole ++ (fraction ++ exponent), rfl, by decide, by decide, ?_⟩
        show skipNumber _ = _
        rw [List.append_assoc, List.append_assoc]
        exact read
  | opening b => exact scalar.elim
  | closing b => exact scalar.elim
  | comma => exact scalar.elim
  | colon => exact scalar.elim

theorem exists_scalar (h : skipScalar c rest = .ok left) :
    ∃ v t, Tree.tokens v = [t] ∧ c :: rest = t.text ++ left := by
  have numeral : ∀ {sign cs : List Char}, sign = [] ∨ sign = ['-'] → skipNumber cs = .ok left →
      ∃ v t, Tree.tokens v = [t] ∧ sign ++ cs = t.text ++ left := by
    intro sign cs signed read
    obtain ⟨whole, fraction, exponent, digits, lead, hf, he, rfl⟩ := exists_number read
    refine ⟨.number ⟨_, .intro signed digits lead hf he⟩, _, rfl, ?_⟩
    simp only [Token.text, List.append_assoc]
  unfold skipScalar at h
  split_ifs at h with n t f quote minus digit
  · exact ⟨.null, _, rfl, by rw [n, word_eq_ok_iff.mp h]; rfl⟩
  · exact ⟨.bool true, _, rfl, by rw [t, word_eq_ok_iff.mp h]; rfl⟩
  · exact ⟨.bool false, _, rfl, by rw [f, word_eq_ok_iff.mp h]; rfl⟩
  · obtain ⟨ps, rfl⟩ := skipString_eq_ok_iff.mp h
    refine ⟨.string ps, _, rfl, ?_⟩
    rw [quote, Token.text_string_append]
  · subst minus
    exact numeral (.inr rfl) h
  · exact numeral (.inl rfl) h

end Scalars

def keyTokens : Bracket → List Piece → List Token
  | .list, _ => []
  | .object, key => [.string key, .colon]

section Keys
variable {b : Bracket} {key : List Piece} {ts : List Token} {cs rest text : List Char}

theorem skipKey_laid (laid : Laid (keyTokens b key ++ ts) text) :
    ∃ rest, skipKey b text = .ok rest ∧ Laid ts rest := by
  cases b with
  | list => exact ⟨text, rfl, laid⟩
  | object =>
    obtain ⟨left, shown, laid⟩ := laid.next
    obtain ⟨rest, shown', laid⟩ := laid.next
    refine ⟨rest, ?_, laid⟩
    have read : skipString (key.flatMap Piece.text ++ '"' :: left) = .ok left :=
      skipString_text key left
    simp [skipKey, shown, shown', Token.text, read]

theorem exists_key (h : skipKey b cs = .ok rest) :
    ∃ key, ∀ ts, Laid ts rest → Laid (keyTokens b key ++ ts) cs := by
  cases b with
  | list =>
    obtain rfl := Except.ok.inj h
    exact ⟨[], fun ts laid => laid⟩
  | object =>
    rw [skipKey] at h
    split at h
    · cases h
    next c more shown =>
      split at h
      next quote =>
        subst quote
        split at h
        · cases h
        next left read =>
          obtain ⟨key, rfl⟩ := skipString_eq_ok_iff.mp read
          split at h
          · cases h
          next c rest' shown' =>
            split at h
            next colon =>
              subst colon
              obtain rfl := Except.ok.inj h
              refine ⟨key, fun ts laid => ?_⟩
              have colon : Laid (.colon :: ts) left := laid_of_next shown' laid
              refine laid_of_next ?_ colon
              rw [shown, Token.text_string_append]
            · cases h
      · cases h

end Keys

def moreParts (b : Bracket) : List Member → List Token
  | [] => [.closing b]
  | (key, v) :: rest => .comma :: (keyTokens b key ++ (v.tokens ++ moreParts b rest))

def parts (b : Bracket) : List Member → List Token
  | [] => [.closing b]
  | (key, v) :: rest => keyTokens b key ++ (v.tokens ++ moreParts b rest)

theorem moreParts_cons_append (b : Bracket) (m : Member) (ms : List Member) (ts : List Token) :
    moreParts b (m :: ms) ++ ts =
      .comma :: (keyTokens b m.1 ++ (m.2.tokens ++ (moreParts b ms ++ ts))) := by
  rw [moreParts, List.cons_append, List.append_assoc, List.append_assoc]

theorem parts_cons_append (b : Bracket) (m : Member) (ms : List Member) (ts : List Token) :
    parts b (m :: ms) ++ ts = keyTokens b m.1 ++ (m.2.tokens ++ (moreParts b ms ++ ts)) := by
  rw [parts, List.append_assoc, List.append_assoc]

def bracketed : Bracket → List Member → Tree
  | .list, ms => .list (ms.map Prod.snd)
  | .object, ms => .object ms

theorem moreItems_map (ms : List Member) :
    Tree.moreItems (ms.map Prod.snd) = moreParts .list ms := by
  induction ms with
  | nil => rw [List.map_nil, Tree.moreItems, moreParts]
  | cons m ms ih => rw [List.map_cons, Tree.moreItems, ih, moreParts, keyTokens, List.nil_append]

theorem moreMembers_eq (ms : List Member) : Tree.moreMembers ms = moreParts .object ms := by
  induction ms with
  | nil => rw [Tree.moreMembers, moreParts]
  | cons m ms ih =>
    rw [Tree.moreMembers, ih, moreParts, keyTokens]
    rfl

theorem tokens_bracketed (b : Bracket) (ms : List Member) :
    (bracketed b ms).tokens = .opening b :: parts b ms := by
  cases b with
  | list =>
    rw [bracketed, Tree.tokens_list]
    cases ms with
    | nil => rfl
    | cons m ms => rw [List.map_cons, Tree.inList, moreItems_map, parts, keyTokens, List.nil_append]
  | object =>
    rw [bracketed, Tree.tokens_object]
    cases ms with
    | nil => rfl
    | cons m ms =>
      rw [Tree.inObject, moreMembers_eq, parts, keyTokens]
      rfl

section Steps
variable {b : Bracket} {below : List Bracket} {c : Char} {cs rest left : List Char}

theorem skipFrom_opening (h : skipBlanks cs = (Token.opening b).text ++ rest)
    (stack : List Bracket) :
    skipFrom .value stack cs = skipFrom .first (b :: stack) rest := by
  rw [skipFrom]
  split
  next h' => cases b <;> cases h.symm.trans h'
  next h' => cases b <;> cases h.symm.trans h' <;> rfl

theorem skipFrom_scalar (h : skipBlanks cs = c :: rest) (noList : c ≠ '[')
    (noObject : c ≠ '\x7b') (read : skipScalar c rest = .ok left) (stack : List Bracket) :
    skipFrom .value stack cs = skipFrom .next stack left := by
  rw [skipFrom]
  split
  next h' => cases h.symm.trans h'
  next h' =>
    obtain ⟨rfl, rfl⟩ := List.cons.inj (h.symm.trans h')
    rw [if_neg noList, if_neg noObject]
    split
    next h' => cases read.symm.trans h'
    next h' => rw [Except.ok.inj (read.symm.trans h')]

theorem skipFrom_first_closing (h : skipBlanks cs = b.close :: rest) :
    skipFrom .first (b :: below) cs = skipFrom .next below rest := by
  rw [skipFrom]
  split
  next h' => cases h.symm.trans h'
  next h' =>
    obtain ⟨rfl, rfl⟩ := List.cons.inj (h.symm.trans h')
    rw [if_pos rfl]

theorem skipFrom_first_part (h : skipBlanks cs = c :: rest) (goesOn : c ≠ b.close)
    (read : skipKey b (c :: rest) = .ok left) :
    skipFrom .first (b :: below) cs = skipFrom .value (b :: below) left := by
  rw [skipFrom.eq_3]
  split
  next h' => cases h.symm.trans h'
  next h' =>
    obtain ⟨rfl, rfl⟩ := List.cons.inj (h.symm.trans h')
    rw [if_neg goesOn]
    split
    next h' => cases read.symm.trans h'
    next h' => rw [Except.ok.inj (read.symm.trans h')]

theorem skipFrom_next_closing (h : skipBlanks cs = b.close :: rest) :
    skipFrom .next (b :: below) cs = skipFrom .next below rest := by
  have comma : b.close ≠ ',' := by cases b <;> decide
  rw [skipFrom]
  split
  next h' => cases h.symm.trans h'
  next h' =>
    obtain ⟨rfl, rfl⟩ := List.cons.inj (h.symm.trans h')
    rw [if_neg comma, if_pos rfl]

theorem skipFrom_next_comma (h : skipBlanks cs = ',' :: rest) (read : skipKey b rest = .ok left) :
    skipFrom .next (b :: below) cs = skipFrom .value (b :: below) left := by
  rw [skipFrom.eq_5]
  split
  next h' => cases h.symm.trans h'
  next h' =>
    obtain ⟨rfl, rfl⟩ := List.cons.inj (h.symm.trans h')
    rw [if_pos rfl]
    split
    next h' => cases read.symm.trans h'
    next h' => rw [Except.ok.inj (read.symm.trans h')]

end Steps

def SkipsOver (v : Tree) : Prop :=
  ∀ (stack : List Bracket) (ts : List Token) (text : List Char), Ends ts →
    Laid (v.tokens ++ ts) text →
    ∃ rest, skipFrom .value stack text = skipFrom .next stack rest ∧ Laid ts rest

section Complete
variable {b : Bracket} {ms : List Member} {ts : List Token} {text : List Char}

theorem ends_moreParts (b : Bracket) (ms : List Member) (ts : List Token) :
    Ends (moreParts b ms ++ ts) := by
  cases ms with
  | nil => exact ends_closing b ts
  | cons m ms => exact ends_comma _

theorem skipFrom_moreParts (skips : ∀ m ∈ ms, SkipsOver m.2) (below : List Bracket)
    (laid : Laid (moreParts b ms ++ ts) text) :
    ∃ rest, skipFrom .next (b :: below) text = skipFrom .next below rest ∧ Laid ts rest := by
  induction ms generalizing text with
  | nil =>
    obtain ⟨rest, shown, laid⟩ := laid.next
    exact ⟨rest, skipFrom_next_closing shown, laid⟩
  | cons m ms ih =>
    obtain ⟨this, others⟩ := List.forall_mem_cons.mp skips
    rw [moreParts_cons_append] at laid
    obtain ⟨left, shown, laid⟩ := laid.next
    obtain ⟨first, key, laid⟩ := skipKey_laid laid
    obtain ⟨second, value, laid⟩ := this (b :: below) _ first (ends_moreParts b ms ts) laid
    obtain ⟨rest, more, laid⟩ := ih others laid
    exact ⟨rest, (skipFrom_next_comma shown key).trans (value.trans more), laid⟩

theorem exists_start (b : Bracket) (m : Member) (ts : List Token) :
    ∃ t more, keyTokens b m.1 ++ (m.2.tokens ++ ts) = t :: more ∧ t.Starts := by
  cases b with
  | list =>
    obtain ⟨t, more, shown, starts⟩ := m.2.tokens_eq_cons
    exact ⟨t, more ++ ts, by rw [keyTokens, List.nil_append, shown, List.cons_append], starts⟩
  | object => exact ⟨_, _, rfl, trivial⟩

theorem skipFrom_parts (skips : ∀ m ∈ ms, SkipsOver m.2) (below : List Bracket)
    (laid : Laid (parts b ms ++ ts) text) :
    ∃ rest, skipFrom .first (b :: below) text = skipFrom .next below rest ∧ Laid ts rest := by
  cases ms with
  | nil =>
    obtain ⟨rest, shown, laid⟩ := laid.next
    exact ⟨rest, skipFrom_first_closing shown, laid⟩
  | cons m ms =>
    obtain ⟨this, others⟩ := List.forall_mem_cons.mp skips
    rw [parts_cons_append] at laid
    have start : ∃ c more, skipBlanks text = c :: more ∧ c ≠ b.close := by
      obtain ⟨t, more, row, starts⟩ := exists_start b m (moreParts b ms ++ ts)
      rw [row] at laid
      obtain ⟨c, letters, shown, -, first⟩ := starts.text_eq_cons
      obtain ⟨rest, next, -⟩ := laid.next
      refine ⟨c, letters ++ rest, by rw [next, shown, List.cons_append], ?_⟩
      rintro rfl
      exact first (by cases b <;> decide)
    obtain ⟨c, more, shown, goesOn⟩ := start
    rw [← laid_skipBlanks_iff, shown] at laid
    obtain ⟨first, key, laid⟩ := skipKey_laid laid
    obtain ⟨second, value, laid⟩ := this (b :: below) _ first (ends_moreParts b ms ts) laid
    obtain ⟨rest, others, laid⟩ := skipFrom_moreParts others below laid
    exact ⟨rest, (skipFrom_first_part shown goesOn key).trans (value.trans others), laid⟩

theorem skipsOver_scalar {v : Tree} {t : Token} (row : v.tokens = [t]) (scalar : t.Scalar) :
    SkipsOver v := by
  intro stack ts text ends laid
  rw [row] at laid
  obtain ⟨rest, shown, laid⟩ := laid.next
  obtain ⟨c, more, letters, noList, noObject, read⟩ := skipScalar_text scalar (laid.stops ends)
  rw [letters] at shown
  exact ⟨rest, skipFrom_scalar shown noList noObject read stack, laid⟩

theorem skipsOver_bracketed (skips : ∀ m ∈ ms, SkipsOver m.2) : SkipsOver (bracketed b ms) := by
  intro stack ts text _ laid
  rw [tokens_bracketed] at laid
  obtain ⟨left, shown, laid⟩ := laid.next
  obtain ⟨rest, inside, laid⟩ := skipFrom_parts skips stack laid
  exact ⟨rest, (skipFrom_opening shown stack).trans inside, laid⟩

theorem skipsOver (v : Tree) : SkipsOver v := by
  induction v using Tree.induct with
  | null => exact skipsOver_scalar rfl trivial
  | bool b => exact skipsOver_scalar rfl trivial
  | number n => exact skipsOver_scalar rfl trivial
  | string ps => exact skipsOver_scalar rfl trivial
  | list items ih =>
    have unnamed : Tree.list items = bracketed .list (items.map fun v => ([], v)) := by
      rw [bracketed, List.map_map]
      exact congrArg _ (List.map_id' items).symm
    rw [unnamed]
    apply skipsOver_bracketed
    intro m hm
    obtain ⟨v, hv, rfl⟩ := List.mem_map.mp hm
    exact ih v hv
  | object ms ih => exact skipsOver_bracketed (b := .object) ih

end Complete

/-- What the open brackets still need to be closed, after a value. -/
def Remaining : List Bracket → List Token → Prop
  | [], row => row = []
  | b :: below, row => ∃ ms more, row = moreParts b ms ++ more ∧ Remaining below more

def Unread : Expecting → List Bracket → List Token → Prop
  | .value, stack, row => ∃ (v : Tree) (more : List Token), row = v.tokens ++ more ∧ Remaining stack more
  | .next, stack, row => Remaining stack row
  | .first, [], row => row = []
  | .first, b :: below, row => ∃ ms more, row = parts b ms ++ more ∧ Remaining below more

theorem exists_unread {e : Expecting} {stack : List Bracket} {cs rest : List Char}
    (h : skipFrom e stack cs = .ok rest) :
    ∃ row, Unread e stack row ∧ ∀ ts, Laid ts rest → Laid (row ++ ts) cs := by
  have opened : ∀ {b : Bracket} {stack : List Bracket} {row : List Token},
      Unread .first (b :: stack) row → Unread .value stack (.opening b :: row) := by
    rintro b stack row ⟨ms, more, rfl, remaining⟩
    exact ⟨bracketed b ms, more, by rw [tokens_bracketed, List.cons_append], remaining⟩
  fun_induction skipFrom e stack cs with
  | case1 => cases h
  | case2 stack cs rest' hc ih =>
    obtain ⟨row, unread, laid⟩ := ih h
    exact ⟨_, opened unread, fun ts rest => laid_of_next hc (laid ts rest)⟩
  | case3 stack cs rest' hc _ ih =>
    obtain ⟨row, unread, laid⟩ := ih h
    exact ⟨_, opened unread, fun ts rest => laid_of_next hc (laid ts rest)⟩
  | case4 => cases h
  | case5 stack cs c rest' hc _ _ left hs ih =>
    obtain ⟨row, remaining, laid⟩ := ih h
    obtain ⟨v, t, single, shown⟩ := exists_scalar hs
    refine ⟨t :: row, ⟨v, row, by rw [single]; rfl, remaining⟩, fun ts rest => ?_⟩
    exact laid_of_next (hc.trans shown) (laid ts rest)
  | case6 cs =>
    obtain rfl := Except.ok.inj h
    exact ⟨[], rfl, fun ts laid => laid⟩
  | case7 => cases h
  | case8 b below cs rest' hc ih =>
    obtain ⟨row, remaining, laid⟩ := ih h
    exact ⟨.closing b :: row, ⟨[], row, rfl, remaining⟩,
      fun ts rest => laid_of_next hc (laid ts rest)⟩
  | case9 => cases h
  | case10 b below cs c rest' hc _ left hk ih =>
    obtain ⟨_, ⟨v, _, rfl, ⟨ms, more, rfl, remaining⟩⟩, laid⟩ := ih h
    obtain ⟨key, shown⟩ := exists_key hk
    refine ⟨keyTokens b key ++ (v.tokens ++ (moreParts b ms ++ more)),
      ⟨(key, v) :: ms, more, ?_, remaining⟩, fun ts rest => ?_⟩
    · rw [parts_cons_append]
    · rw [← laid_skipBlanks_iff, hc, List.append_assoc]
      exact shown _ (laid ts rest)
  | case11 cs =>
    obtain rfl := Except.ok.inj h
    exact ⟨[], rfl, fun ts laid => laid⟩
  | case12 => cases h
  | case13 => cases h
  | case14 b below cs rest' left hk hc ih =>
    obtain ⟨_, ⟨v, _, rfl, ⟨ms, more, rfl, remaining⟩⟩, laid⟩ := ih h
    obtain ⟨key, shown⟩ := exists_key hk
    refine ⟨.comma :: (keyTokens b key ++ (v.tokens ++ (moreParts b ms ++ more))),
      ⟨(key, v) :: ms, more, ?_, remaining⟩, fun ts rest => ?_⟩
    · rw [moreParts_cons_append]
    · rw [List.cons_append, List.append_assoc]
      exact laid_of_next hc (shown _ (laid ts rest))
  | case15 b below cs rest' hc _ ih =>
    obtain ⟨row, remaining, laid⟩ := ih h
    exact ⟨.closing b :: row, ⟨[], row, rfl, remaining⟩,
      fun ts rest => laid_of_next hc (laid ts rest)⟩
  | case16 => cases h

theorem skipValue_laid {v : Tree} {ts : List Token} {text : List Char} (ends : Ends ts)
    (laid : Laid (v.tokens ++ ts) text) :
    ∃ rest, skipValue text = .ok rest ∧ Laid ts rest := by
  obtain ⟨rest, read, laid⟩ := skipsOver v [] ts text ends laid
  refine ⟨rest, read.trans ?_, laid⟩
  rw [skipFrom]

theorem exists_value {cs rest : List Char} (h : skipValue cs = .ok rest) :
    ∃ v : Tree, ∀ ts, Laid ts rest → Laid (v.tokens ++ ts) cs := by
  obtain ⟨_, ⟨v, _, rfl, rfl⟩, laid⟩ := exists_unread h
  rw [List.append_nil] at laid
  exact ⟨v, laid⟩

end FlowLoops.Json
