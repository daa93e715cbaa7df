import FlowLoops.Json.Token

/-!
Values that are read over, nested to any depth. Their form is checked, but numbers may have any size
and the surrogates of strings need not pair up.
-/

namespace FlowLoops.Json

def skipEscape (cs : List Char) : Except Reject (List Char) :=
  match cs with
  | [] => .error (.before .endInString cs)
  | 'u' :: rest => (hexQuad rest).map (·.2)
  | c :: rest => if (shortEscape? c).isSome then .ok rest else .error (.past .badEscape cs)

theorem length_skipEscape {cs rest : List Char} (h : skipEscape cs = .ok rest) :
    rest.length < cs.length := by
  unfold skipEscape at h
  split at h
  · simp at h
  next digits =>
    cases hq : hexQuad digits with
    | error r => simp [hq, Except.map] at h
    | ok p =>
      simp only [hq, Except.map, Except.ok.injEq] at h
      have := @length_hexQuad digits p.2 p.1 hq
      simp only [← h, List.length_cons]
      omega
  · split at h
    · simp only [Except.ok.injEq] at h
      simp [h]
    · simp at h

def skipString (cs : List Char) : Except Reject (List Char) :=
  match cs with
  | [] => .error (.before .endInString cs)
  | c :: rest =>
    if c = '"' then .ok rest
    else if c = '\\' then
      match _h : skipEscape rest with
      | .error r => .error r
      | .ok left => skipString left
    else if c.toNat < 32 then .error (.before .controlCharacter cs)
    else skipString rest
termination_by cs.length
decreasing_by
  · have := length_skipEscape _h
    simp only [List.length_cons]
    omega
  · simp

theorem length_skipString {cs rest : List Char} (h : skipString cs = .ok rest) :
    rest.length < cs.length := by
  fun_induction skipString cs with
  | case1 => simp at h
  | case2 rest' =>
    simp only [Except.ok.injEq] at h
    simp [h]
  | case3 => simp at h
  | case4 rest' left he _ ih =>
    have := ih h
    have := length_skipEscape he
    simp only [List.length_cons]
    omega
  | case5 => simp at h
  | case6 c rest' _ _ _ ih =>
    have := ih h
    simp only [List.length_cons]
    omega

def skipExponent (cs : List Char) : Except Reject (List Char) :=
  let digits := match cs with
    | '+' :: rest => rest
    | '-' :: rest => rest
    | _ => cs
  match digits with
  | [] => .error (.before .badNumber digits)
  | c :: rest =>
    if c.isDigit then .ok (rest.dropWhile Char.isDigit) else .error (.past .badNumber digits)

def skipNumberTail (cs : List Char) : Except Reject (List Char) :=
  match cs with
  | '.' :: rest =>
    match rest with
    | [] => .error (.past .badNumber rest)
    | d :: more =>
      if d.isDigit then
        match more.dropWhile Char.isDigit with
        | 'e' :: tail | 'E' :: tail => skipExponent tail
        | tail => .ok tail
      else .error (.past .badNumber rest)
  | 'e' :: rest | 'E' :: rest => skipExponent rest
  | _ => .ok cs

def skipNumber (cs : List Char) : Except Reject (List Char) :=
  match cs with
  | [] => .error (.before .badNumber cs)
  | c :: rest =>
    if c = '0' then
      if (rest.head?).any Char.isDigit then .error (.past .badNumber rest) else skipNumberTail rest
    else if c.isDigit then skipNumberTail (rest.dropWhile Char.isDigit)
    else .error (.past .badNumber cs)

theorem length_dropDigits (cs : List Char) : (cs.dropWhile Char.isDigit).length ≤ cs.length :=
  (List.dropWhile_sublist Char.isDigit).length_le

theorem length_skipExponent {cs rest : List Char} (h : skipExponent cs = .ok rest) :
    rest.length ≤ cs.length := by
  have shorter : ∀ digits : List Char, (match digits with
      | [] => .error (.before .badNumber digits)
      | c :: rest =>
        if c.isDigit then .ok (rest.dropWhile Char.isDigit)
        else .error (.past .badNumber digits) : Except Reject (List Char)) = .ok rest →
      rest.length ≤ digits.length := by
    intro digits hd
    split at hd
    · simp at hd
    next c more =>
      split at hd
      · simp only [Except.ok.injEq] at hd
        have := length_dropDigits more
        simp only [← hd, List.length_cons]
        omega
      · simp at hd
  unfold skipExponent at h
  have := shorter _ h
  split at this <;> simp only [List.length_cons] at * <;> omega

theorem length_skipNumberTail {cs rest : List Char} (h : skipNumberTail cs = .ok rest) :
    rest.length ≤ cs.length := by
  unfold skipNumberTail at h
  split at h
  next after =>
    split at h
    · simp at h
    next d more =>
      split at h
      · have := length_dropDigits more
        split at h
        next tail hm =>
          have := length_skipExponent h
          simp only [hm, List.length_cons] at *
          omega
        next tail hm =>
          have := length_skipExponent h
          simp only [hm, List.length_cons] at *
          omega
        · simp only [Except.ok.injEq] at h
          simp only [h, List.length_cons] at *
          omega
      · simp at h
  · have := length_skipExponent h
    simp only [List.length_cons]
    omega
  · have := length_skipExponent h
    simp only [List.length_cons]
    omega
  · simp only [Except.ok.injEq] at h
    simp [h]

theorem length_skipNumber {cs rest : List Char} (h : skipNumber cs = .ok rest) :
    rest.length < cs.length := by
  unfold skipNumber at h
  split at h
  · simp at h
  next c more =>
    split at h
    · split at h
      · simp at h
      · have := length_skipNumberTail h
        simp only [List.length_cons]
        omega
    · split at h
      · have := length_skipNumberTail h
        have := length_dropDigits more
        simp only [List.length_cons]
        omega
      · simp at h

def skipScalar (c : Char) (rest : List Char) : Except Reject (List Char) :=
  if c = 'n' then word ['u', 'l', 'l'] rest
  else if c = 't' then word ['r', 'u', 'e'] rest
  else if c = 'f' then word ['a', 'l', 's', 'e'] rest
  else if c = '"' then skipString rest
  else if c = '-' then skipNumber rest
  else if c.isDigit then skipNumber (c :: rest)
  else .error (.past .noValue (c :: rest))

theorem length_skipScalar {c : Char} {rest left : List Char} (h : skipScalar c rest = .ok left) :
    left.length ≤ rest.length := by
  unfold skipScalar at h
  split at h
  · exact length_word h
  split at h
  · exact length_word h
  split at h
  · exact length_word h
  split at h
  · exact Nat.le_of_lt (length_skipString h)
  split at h
  · exact Nat.le_of_lt (length_skipNumber h)
  split at h
  · exact Nat.le_of_lt_succ (length_skipNumber h)
  · simp at h

inductive Bracket where
  | list | object
deriving DecidableEq, Repr

namespace Bracket

def close : Bracket → Char
  | list => ']'
  | object => '\x7d'

def ended : Bracket → Cause
  | list => .endInList
  | object => .endInObject

def unclosed : Bracket → Cause
  | list => .noListEnd
  | object => .noObjectEnd

end Bracket

def skipKey : Bracket → List Char → Except Reject (List Char)
  | .list, cs => .ok cs
  | .object, cs =>
    match skipBlanks cs with
    | [] => .error (.before .endInObject [])
    | c :: rest =>
      if c = '"' then
        match skipString rest with
        | .error r => .error r
        | .ok left =>
          match skipBlanks left with
          | [] => .error (.before .endInObject [])
          | c :: rest => if c = ':' then .ok rest else .error (.past .noColon (c :: rest))
      else .error (.past .keyNotString (c :: rest))

theorem length_skipKey {b : Bracket} {cs rest : List Char} (h : skipKey b cs = .ok rest) :
    rest.length ≤ cs.length := by
  unfold skipKey at h
  split at h
  · simp only [Except.ok.injEq] at h
    simp [h]
  · have hb := length_skipBlanks cs
    split at h
    · simp at h
    next c more hc =>
      split at h
      · split at h
        · simp at h
        next left hs =>
          have := length_skipString hs
          have hb' := length_skipBlanks left
          split at h
          · simp at h
          next c' more' hc' =>
            split at h
            · simp only [Except.ok.injEq] at h
              simp only [hc, hc', ← h, List.length_cons] at *
              omega
            · simp at h
      · simp at h

/-- What is expected while values are read over: a value, the first part of a bracket or its end, or
the next part or the end. -/
inductive Expecting where
  | value | first | next
deriving DecidableEq, Repr

/-- Reads on until the value begun outside all brackets has ended. The open brackets are listed from
the innermost out. -/
def skipFrom : Expecting → List Bracket → List Char → Except Reject (List Char)
  | .value, stack, cs =>
    match _hc : skipBlanks cs with
    | [] => .error (.before .endInValue [])
    | c :: rest =>
      if c = '[' then skipFrom .first (.list :: stack) rest
      else if c = '\x7b' then skipFrom .first (.object :: stack) rest
      else match _h : skipScalar c rest with
        | .error r => .error r
        | .ok left => skipFrom .next stack left
  | .first, [], cs => .ok cs
  | .first, b :: below, cs =>
    match _hc : skipBlanks cs with
    | [] => .error (.before b.ended [])
    | c :: rest =>
      if c = b.close then skipFrom .next below rest
      else match _h : skipKey b (c :: rest) with
        | .error r => .error r
        | .ok left => skipFrom .value (b :: below) left
  | .next, [], cs => .ok cs
  | .next, b :: below, cs =>
    match _hc : skipBlanks cs with
    | [] => .error (.before b.ended [])
    | c :: rest =>
      if c = ',' then
        match _h : skipKey b rest with
        | .error r => .error r
        | .ok left => skipFrom .value (b :: below) left
      else if c = b.close then skipFrom .next below rest
      else .error (.past b.unclosed (c :: rest))
termination_by e _ cs => (cs.length, if e = .first then 1 else 0)
decreasing_by
  all_goals
    have hb := length_skipBlanks cs
    rw [_hc] at hb
    simp only [List.length_cons] at hb
  · exact Prod.Lex.left _ _ (by omega)
  · exact Prod.Lex.left _ _ (by omega)
  · have := length_skipScalar _h
    exact Prod.Lex.left _ _ (by omega)
  · exact Prod.Lex.left _ _ (by omega)
  · have := length_skipKey _h
    simp only [List.length_cons] at this
    by_cases same : left.length = cs.length
    · rw [same]
      exact Prod.Lex.right _ (by decide)
    · exact Prod.Lex.left _ _ (by omega)
  · have := length_skipKey _h
    exact Prod.Lex.left _ _ (by omega)
  · exact Prod.Lex.left _ _ (by omega)

def skipValue (cs : List Char) : Except Reject (List Char) := skipFrom .value [] cs

theorem length_skipFrom {e : Expecting} {stack : List Bracket} {cs rest : List Char}
    (h : skipFrom e stack cs = .ok rest) : rest.length ≤ cs.length := by
  fun_induction skipFrom e stack cs with
  | case1 => simp at h
  | case2 stack cs rest' hc ih =>
    have hb := length_skipBlanks cs
    have := ih h
    simp only [hc, List.length_cons] at hb
    omega
  | case3 stack cs rest' hc _ ih =>
    have hb := length_skipBlanks cs
    have := ih h
    simp only [hc, List.length_cons] at hb
    omega
  | case4 => simp at h
  | case5 stack cs c rest' hc _ _ left hs ih =>
    have hb := length_skipBlanks cs
    have := ih h
    have := length_skipScalar hs
    simp only [hc, List.length_cons] at hb
    omega
  | case6 cs => simp_all
  | case7 => simp at h
  | case8 b below cs rest' hc ih =>
    have hb := length_skipBlanks cs
    have := ih h
    simp only [hc, List.length_cons] at hb
    omega
  | case9 => simp at h
  | case10 b below cs c rest' hc _ left hk ih =>
    have hb := length_skipBlanks cs
    have := ih h
    have := length_skipKey hk
    simp only [hc, List.length_cons] at *
    omega
  | case11 cs => simp_all
  | case12 => simp at h
  | case13 => simp at h
  | case14 b below cs rest' left hk hc ih =>
    have hb := length_skipBlanks cs
    have := ih h
    have := length_skipKey hk
    simp only [hc, List.length_cons] at *
    omega
  | case15 b below cs rest' hc _ ih =>
    have hb := length_skipBlanks cs
    have := ih h
    simp only [hc, List.length_cons] at hb
    omega
  | case16 => simp at h

theorem length_skipValue {cs rest : List Char} (h : skipValue cs = .ok rest) :
    rest.length ≤ cs.length := length_skipFrom h

end FlowLoops.Json
