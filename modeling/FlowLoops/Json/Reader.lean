import FlowLoops.Json.Number
import FlowLoops.Json.Skip

/-!
Readers of JSON values of a known kind: strings, strings that may be null, and lists. A reader takes
at least one character, so that what is read in turn comes to an end.
-/

namespace FlowLoops.Json

/-- Reads a value off the front of a text and gives what is left, which is shorter. -/
structure Reader (α : Type) where
  read : List Char → Except Reject (α × List Char)
  shorter : ∀ {cs v rest}, read cs = .ok (v, rest) → rest.length < cs.length

theorem length_lt_of_skipBlanks {cs more : List Char} {c : Char} (h : skipBlanks cs = c :: more) :
    more.length < cs.length := by
  have := length_skipBlanks cs
  simp only [h, List.length_cons] at this
  omega

namespace Reader

def map {α β : Type} (f : α → β) (r : Reader α) : Reader β where
  read cs := match r.read cs with
    | .error e => .error e
    | .ok (v, rest) => .ok (f v, rest)
  shorter := by
    intro cs v rest h
    split at h
    · simp at h
    next hr =>
      simp only [Except.ok.injEq, Prod.mk.injEq] at h
      exact h.2 ▸ r.shorter hr

def readText (cs : List Char) : Except Reject (String × List Char) :=
  match skipBlanks cs with
  | [] => .error (.past .endInValue [])
  | c :: rest => if c = '"' then string rest else .error (mismatch "a string" (c :: rest))

theorem length_readText {cs rest : List Char} {s : String} (h : readText cs = .ok (s, rest)) :
    rest.length < cs.length := by
  unfold readText at h
  split at h
  · simp at h
  next hc =>
    have := length_lt_of_skipBlanks hc
    split at h
    · have := length_string h
      omega
    · simp at h

def text : Reader String := ⟨readText, length_readText⟩

def readOptionalText (cs : List Char) : Except Reject (Option String × List Char) :=
  match skipBlanks cs with
  | 'n' :: rest => (word ['u', 'l', 'l'] rest).map (none, ·)
  | _ => (readText cs).map fun (s, rest) => (some s, rest)

def optionalText : Reader (Option String) where
  read := readOptionalText
  shorter := by
    intro cs v rest h
    unfold readOptionalText at h
    split at h
    next more hc =>
      have := length_lt_of_skipBlanks hc
      cases hw : word ['u', 'l', 'l'] more with
      | error r => simp [hw, Except.map] at h
      | ok left =>
        simp only [hw, Except.map, Except.ok.injEq, Prod.mk.injEq] at h
        have := length_word hw
        rw [← h.2]
        omega
    · cases ht : readText cs with
      | error r => simp [ht, Except.map] at h
      | ok p =>
        simp only [ht, Except.map, Except.ok.injEq, Prod.mk.injEq] at h
        exact h.2 ▸ @length_readText cs p.2 p.1 ht

end Reader

/-- Whether a list goes on, and from where: before its closing bracket if it does not. -/
def nextItem (first : Bool) (cs : List Char) : Except Reject (Bool × List Char) :=
  match skipBlanks cs with
  | [] => .error (.past .endInList [])
  | c :: rest =>
    if c = ']' then .ok (false, c :: rest)
    else if first then .ok (true, c :: rest)
    else if c = ',' then
      match skipBlanks rest with
      | [] => .error (.past .endInValue [])
      | d :: more =>
        if d = ']' then .error (.past .trailingComma (d :: more)) else .ok (true, d :: more)
    else .error (.past .noListEnd (c :: rest))

theorem length_nextItem {first goesOn : Bool} {cs rest : List Char}
    (h : nextItem first cs = .ok (goesOn, rest)) : rest.length ≤ cs.length := by
  have hb := length_skipBlanks cs
  unfold nextItem at h
  split at h
  · simp at h
  next c more hc =>
    rw [hc] at hb
    split at h
    · simp only [Except.ok.injEq, Prod.mk.injEq] at h
      exact h.2 ▸ hb
    split at h
    · simp only [Except.ok.injEq, Prod.mk.injEq] at h
      exact h.2 ▸ hb
    split at h
    · have := length_skipBlanks more
      split at h
      · simp at h
      next hd =>
        split at h
        · simp at h
        · simp only [Except.ok.injEq, Prod.mk.injEq] at h
          simp only [← h.2, hd, List.length_cons] at *
          omega
    · simp at h

def items {α : Type} (r : Reader α) (first : Bool) (cs : List Char) :
    Except Reject (List α × List Char) :=
  match _hn : nextItem first cs with
  | .error e => .error e
  | .ok (false, rest) => .ok ([], rest.tail)
  | .ok (true, rest) =>
    match _hr : r.read rest with
    | .error e => .error e
    | .ok (v, left) =>
      match items r false left with
      | .error e => .error e
      | .ok (vs, after) => .ok (v :: vs, after)
termination_by cs.length
decreasing_by
  have := length_nextItem _hn
  have := r.shorter _hr
  omega

theorem length_items {α : Type} {r : Reader α} {first : Bool} {cs rest : List Char} {vs : List α}
    (h : items r first cs = .ok (vs, rest)) : rest.length ≤ cs.length := by
  fun_induction items r first cs generalizing vs rest with
  | case1 => simp at h
  | case2 first cs left hn =>
    have := length_nextItem hn
    simp only [Except.ok.injEq, Prod.mk.injEq] at h
    rw [← h.2, List.length_tail]
    omega
  | case3 => simp at h
  | case4 => simp_all
  | case5 first cs left hn v after hr vs' last hi ih =>
    have := length_nextItem hn
    have := r.shorter hr
    have := ih hi
    simp only [Except.ok.injEq, Prod.mk.injEq] at h
    rw [← h.2]
    omega

def readList {α : Type} (r : Reader α) (cs : List Char) : Except Reject (List α × List Char) :=
  match skipBlanks cs with
  | [] => .error (.past .endInValue [])
  | c :: rest => if c = '[' then items r true rest else .error (mismatch "a sequence" (c :: rest))

theorem length_readList {α : Type} {r : Reader α} {cs rest : List Char} {vs : List α}
    (h : readList r cs = .ok (vs, rest)) : rest.length < cs.length := by
  unfold readList at h
  split at h
  · simp at h
  next hc =>
    have := length_lt_of_skipBlanks hc
    split at h
    · have := length_items h
      omega
    · simp at h

def Reader.list {α : Type} (r : Reader α) : Reader (List α) := ⟨readList r, length_readList⟩

def Reader.whole {α : Type} (r : Reader α) (text : List Char) : Except Reject α :=
  match r.read text with
  | .error e => .error e
  | .ok (v, rest) =>
    match skipBlanks rest with
    | [] => .ok v
    | more => .error (.past .trailingText more)

end FlowLoops.Json
