import FlowLoops.Json.Reader

/-!
Records in JSON. A record may be written as an object, with its fields in any order and others among
them, or as a list of its fields in order. A flaw of a whole record is placed where its closing
bracket was looked for.
-/

namespace FlowLoops.Json

/-- What came of the inside of a record: its value, a flaw of the whole that has no place yet, or a
rejection. -/
inductive Reading (α : Type) where
  | done (value : α) (rest : List Char)
  | flawed (cause : Cause) (rest : List Char)
  | rejected (reject : Reject)

/-- Looks for the end of a list. Gives where the looking stopped, and what is wrong if the end was
not there. -/
def closeList (cs : List Char) : List Char × Option Reject :=
  match skipBlanks cs with
  | [] => ([], some (.past .endInList []))
  | c :: rest =>
    if c = ']' then (rest, none)
    else if c = ',' then
      let more := skipBlanks rest
      (more, some (.past (if more.head? = some ']' then .trailingComma else .trailingText) more))
    else (c :: rest, some (.past .trailingText (c :: rest)))

def closeObject (cs : List Char) : List Char × Option Reject :=
  match skipBlanks cs with
  | [] => ([], some (.past .endInObject []))
  | c :: rest =>
    if c = '\x7d' then (rest, none)
    else if c = ',' then (c :: rest, some (.past .trailingComma (c :: rest)))
    else (c :: rest, some (.past .trailingText (c :: rest)))

theorem length_closeList (cs : List Char) : (closeList cs).1.length ≤ cs.length := by
  have hb := length_skipBlanks cs
  unfold closeList
  split
  · simp
  next c rest hc =>
    rw [hc, List.length_cons] at hb
    have := length_skipBlanks rest
    split
    · simp only
      omega
    split <;> simp only [List.length_cons] <;> omega

theorem length_closeObject (cs : List Char) : (closeObject cs).1.length ≤ cs.length := by
  have hb := length_skipBlanks cs
  unfold closeObject
  split
  · simp
  next c rest hc =>
    rw [hc, List.length_cons] at hb
    split
    · simp only
      omega
    split <;> simp only [List.length_cons] <;> omega

namespace Reading

variable {α σ : Type}

def close (ending : List Char → List Char × Option Reject) :
    Reading α → Except Reject (α × List Char)
  | done v rest =>
    match ending rest with
    | (left, none) => .ok (v, left)
    | (_, some r) => .error r
  | flawed cause rest => .error (.before cause (ending rest).1)
  | rejected r => .error r

def complete (finish : σ → Except String α) : Reading σ → Reading α
  | done s rest =>
    match finish s with
    | .error name => flawed (.missingField name) rest
    | .ok v => done v rest
  | flawed cause rest => flawed cause rest
  | rejected r => rejected r

end Reading

structure Field (σ : Type) where
  name : String
  filled : σ → Bool
  reader : Reader (σ → σ)

/-- A record as it is read: what it is called, its fields in order, how many of them a list must
have, the draft that fields are put into, and the value of a draft or the name of a field it
lacks. -/
structure Shape (σ α : Type) where
  name : String
  fields : List (Field σ)
  required : Nat
  blank : σ
  finish : σ → Except String α

namespace Shape

variable {σ α : Type}

def lengthText (s : Shape σ α) : String := s.name ++ s!" with {s.fields.length} elements"

def elements (s : Shape σ α) (index : Nat) (draft : σ) :
    List (Field σ) → List Char → Reading σ
  | [], cs => .done draft cs
  | f :: fs, cs =>
    match nextItem (index = 0) cs with
    | .error e => .rejected e
    | .ok (false, rest) =>
      if index < s.required then .flawed (.wrongLength index s.lengthText) rest
      else .done draft rest
    | .ok (true, rest) =>
      match f.reader.read rest with
      | .error e => .rejected e
      | .ok (put, left) => s.elements (index + 1) (put draft) fs left

end Shape

def nextKey (first : Bool) (cs : List Char) : Except Reject (Option String × List Char) :=
  match skipBlanks cs with
  | [] => .error (.past .endInObject [])
  | c :: rest =>
    if c = '\x7d' then .ok (none, c :: rest)
    else if first then
      if c = '"' then (string rest).map fun (s, left) => (some s, left)
      else .error (.past .keyNotString (c :: rest))
    else if c = ',' then
      match skipBlanks rest with
      | [] => .error (.past .endInValue [])
      | d :: more =>
        if d = '"' then (string more).map fun (s, left) => (some s, left)
        else if d = '\x7d' then .error (.past .trailingComma (d :: more))
        else .error (.past .keyNotString (d :: more))
    else .error (.past .noObjectEnd (c :: rest))

theorem length_nextKey {first : Bool} {cs rest : List Char} {key : String}
    (h : nextKey first cs = .ok (some key, rest)) : rest.length < cs.length := by
  have read : ∀ {more : List Char},
      (string more).map (fun (s, left) => (some s, left)) = .ok (some key, rest) →
      rest.length < more.length := by
    intro more hm
    cases hs : string more with
    | error r => simp [hs, Except.map] at hm
    | ok p =>
      simp only [hs, Except.map, Except.ok.injEq, Prod.mk.injEq] at hm
      exact hm.2 ▸ @length_string more p.2 p.1 hs
  unfold nextKey at h
  split at h
  · simp at h
  next hc =>
    have := length_lt_of_skipBlanks hc
    split at h
    · simp at h
    split at h
    · split at h
      · have := read h
        omega
      · simp at h
    split at h
    · split at h
      · simp at h
      next hd =>
        have := length_lt_of_skipBlanks hd
        split at h
        · have := read h
          omega
        split at h <;> simp at h
    · simp at h

theorem nextKey_none {first : Bool} {cs rest : List Char}
    (h : nextKey first cs = .ok (none, rest)) : rest = skipBlanks cs := by
  have read : ∀ more : List Char,
      (string more).map (fun (s, left) => (some s, left)) ≠ .ok (none, rest) := by
    intro more hm
    cases hs : string more <;> simp [hs, Except.map] at hm
  unfold nextKey at h
  split at h
  · simp at h
  next hc =>
    split at h
    · simp only [Except.ok.injEq, Prod.mk.injEq, true_and] at h
      rw [hc, h]
    split at h
    · split at h
      · exact absurd h (read _)
      · simp at h
    split at h
    · split at h
      · simp at h
      · split at h
        · exact absurd h (read _)
        split at h <;> simp at h
    · simp at h

def colon (cs : List Char) : Except Reject (List Char) :=
  match skipBlanks cs with
  | [] => .error (.past .endInObject [])
  | c :: rest => if c = ':' then .ok rest else .error (.past .noColon (c :: rest))

theorem length_colon {cs rest : List Char} (h : colon cs = .ok rest) :
    rest.length < cs.length := by
  unfold colon at h
  split at h
  · simp at h
  next hc =>
    have := length_lt_of_skipBlanks hc
    split at h
    · simp only [Except.ok.injEq] at h
      rw [← h]
      exact this
    · simp at h

namespace Shape

variable {σ α : Type}

/-- Puts the members of an object into the fields of their names. Other members are read over; a
second member of a field is a flaw. -/
def members (s : Shape σ α) (first : Bool) (draft : σ) (cs : List Char) : Reading σ :=
  match _hk : nextKey first cs with
  | .error e => .rejected e
  | .ok (none, rest) => .done draft rest
  | .ok (some key, rest) =>
    match s.fields.find? fun f => f.name = key with
    | none =>
      match _hc : colon rest with
      | .error e => .rejected e
      | .ok value =>
        match _hv : skipValue value with
        | .error e => .rejected e
        | .ok left => s.members false draft left
    | some f =>
      if f.filled draft then .flawed (.repeatedField key) rest
      else match _hc : colon rest with
        | .error e => .rejected e
        | .ok value =>
          match _hv : f.reader.read value with
          | .error e => .rejected e
          | .ok (put, left) => s.members false (put draft) left
termination_by cs.length
decreasing_by
  · have := length_nextKey _hk
    have := length_colon _hc
    have := length_skipValue _hv
    omega
  · have := length_nextKey _hk
    have := length_colon _hc
    have := f.reader.shorter _hv
    omega

def read (s : Shape σ α) (cs : List Char) : Except Reject (α × List Char) :=
  match skipBlanks cs with
  | [] => .error (.past .endInValue [])
  | c :: rest =>
    if c = '[' then ((s.elements 0 s.blank s.fields rest).complete s.finish).close closeList
    else if c = '\x7b' then ((s.members true s.blank rest).complete s.finish).close closeObject
    else .error (mismatch s.name (c :: rest))

theorem length_elements {s : Shape σ α} {index : Nat} {draft v : σ} {fs : List (Field σ)}
    {cs rest : List Char} (h : s.elements index draft fs cs = .done v rest) :
    rest.length ≤ cs.length := by
  induction fs generalizing index draft cs with
  | nil =>
    simp only [elements, Reading.done.injEq] at h
    simp [h.2]
  | cons f fs ih =>
    simp only [elements] at h
    split at h
    · simp at h
    next hn =>
      have := length_nextItem hn
      split at h
      · simp at h
      · simp only [Reading.done.injEq] at h
        exact h.2 ▸ this
    next hn =>
      have := length_nextItem hn
      split at h
      · simp at h
      next hr =>
        have := f.reader.shorter hr
        have := ih h
        omega

theorem length_members {s : Shape σ α} {first : Bool} {draft v : σ} {cs rest : List Char}
    (h : s.members first draft cs = .done v rest) : rest.length ≤ cs.length := by
  fun_induction members s first draft cs with
  | case1 => simp at h
  | case2 first draft cs left hk =>
    simp only [Reading.done.injEq] at h
    rw [← h.2, nextKey_none hk]
    exact length_skipBlanks cs
  | case3 => simp at h
  | case4 => simp at h
  | case5 first draft cs key left hk hf value hc after hv ih =>
    have := length_nextKey hk
    have := length_colon hc
    have := length_skipValue hv
    have := ih h
    omega
  | case6 => simp at h
  | case7 => simp at h
  | case8 => simp at h
  | case9 first draft cs key left hk f hf _ value hc put after hv ih =>
    have := length_nextKey hk
    have := length_colon hc
    have := f.reader.shorter hv
    have := ih h
    omega

theorem length_read {s : Shape σ α} {cs rest : List Char} {v : α} (h : s.read cs = .ok (v, rest)) :
    rest.length < cs.length := by
  have closed : ∀ (ending : List Char → List Char × Option Reject) (r : Reading σ),
      (∀ more, (ending more).1.length ≤ more.length) →
      (r.complete s.finish).close ending = .ok (v, rest) →
      ∃ d left, r = .done d left ∧ rest.length ≤ left.length := by
    intro ending r he hr
    cases r with
    | done d left =>
      refine ⟨d, left, rfl, ?_⟩
      have := he left
      simp only [Reading.complete] at hr
      split at hr
      · simp [Reading.close] at hr
      · simp only [Reading.close] at hr
        split at hr
        next hend =>
          simp only [Except.ok.injEq, Prod.mk.injEq] at hr
          rw [hend] at this
          exact hr.2 ▸ this
        · simp at hr
    | flawed => simp [Reading.complete, Reading.close] at hr
    | rejected => simp [Reading.complete, Reading.close] at hr
  unfold read at h
  split at h
  · simp at h
  next hc =>
    have := length_lt_of_skipBlanks hc
    split at h
    · obtain ⟨d, left, hd, hle⟩ := closed _ _ length_closeList h
      have := length_elements hd
      omega
    split at h
    · obtain ⟨d, left, hd, hle⟩ := closed _ _ length_closeObject h
      have := length_members hd
      omega
    · simp at h

def reader (s : Shape σ α) : Reader α := ⟨s.read, length_read⟩

end Shape

end FlowLoops.Json
