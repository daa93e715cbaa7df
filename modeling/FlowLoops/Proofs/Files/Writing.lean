import FlowLoops.Files
import Mathlib.Data.List.Basic

/-! What writing a file changes: one place, where there was a file or nothing before. Paths go on to
lead where they led. -/

namespace FlowLoops.Files
variable {f after : Files} {path : Path} {place other next : Place} {name : List UInt8}
  {names : List (List UInt8)} {entry : Entry} {content : List UInt8} {e : FileError}

section Put

theorem find?_eq_lookup (inside : place ≠ []) : f.find? place = f.entries.lookup place := by
  cases place with
  | nil => exact absurd rfl inside
  | cons name parent => rfl

theorem lookup_filter_ne (entries : List (Place × Entry)) (apart : other ≠ place) :
    (entries.filter fun e => e.1 ≠ place).lookup other = entries.lookup other := by
  induction entries with
  | nil => rfl
  | cons e rest ih =>
    by_cases kept : e.1 ≠ place
    · rw [List.filter_cons_of_pos (by simpa using kept), List.lookup_cons, List.lookup_cons, ih]
    · have missed : (other == e.1) = false := by
        rw [not_ne_iff.mp kept]
        simpa using apart
      rw [List.filter_cons_of_neg (by simpa using kept), ih, List.lookup_cons, missed]

theorem find?_put_self (inside : place ≠ []) : (f.put place entry).find? place = some entry := by
  rw [find?_eq_lookup inside]
  exact List.lookup_cons_self

theorem find?_put_of_ne (apart : other ≠ place) :
    (f.put place entry).find? other = f.find? other := by
  cases other with
  | nil => rfl
  | cons name parent =>
    have missed : ((name :: parent) == place) = false := by simpa using apart
    rw [find?_eq_lookup (List.cons_ne_nil _ _), find?_eq_lookup (List.cons_ne_nil _ _), put,
      List.lookup_cons, missed]
    exact lookup_filter_ne f.entries apart

end Put

section Walk

structure Keeps (f after : Files) : Prop where
  directory {place : Place} (h : f.find? place = some .directory) :
    after.find? place = some .directory
  found {place : Place} (h : (f.find? place).isSome) : (after.find? place).isSome

theorem walkName_into (here : f.find? place = some .directory)
    (proper : ¬ (name = [] ∨ name = [0x2E] ∨ name = [0x2E, 0x2E]))
    (found : (f.find? (name :: place)).isSome) : f.walkName place name = .ok (name :: place) := by
  rw [not_or, not_or] at proper
  rw [walkName, here]
  simp only [proper, or_self, if_false, found, if_true]

theorem Keeps.walkName (keeps : f.Keeps after) (led : f.walkName place name = .ok next) :
    after.walkName place name = .ok next := by
  have here : f.find? place = some .directory := by
    unfold Files.walkName at led
    split at led
    · cases led
    · cases led
    · assumption
  rw [Files.walkName, here] at led
  rw [Files.walkName, keeps.directory here]
  split_ifs at led ⊢ with stays up missing found found
  · exact led
  · exact led
  · exact led
  · exact absurd (keeps.found found) missing

theorem Keeps.walk (keeps : f.Keeps after) (led : f.walk names = .ok place) :
    after.walk names = .ok place := by
  unfold Files.walk at led ⊢
  generalize [] = start at led ⊢
  induction names generalizing start with
  | nil => exact led
  | cons name rest ih =>
    rw [List.foldlM_cons] at led ⊢
    cases first : f.walkName start name with
    | error e =>
      rw [first] at led
      cases led
    | ok next =>
      rw [first] at led
      rw [keeps.walkName first]
      exact ih next led

theorem keeps_put (inside : place ≠ []) (free : f.find? place ≠ some .directory) :
    f.Keeps (f.put place (.file content)) := by
  refine ⟨fun {other} h => ?_, fun {other} h => ?_⟩
  · have apart : other ≠ place := fun same => free (same ▸ h)
    rwa [find?_put_of_ne apart]
  · by_cases same : other = place
    · rw [same, find?_put_self inside]
      rfl
    · rwa [find?_put_of_ne same]

end Walk

section Target

theorem write_eq_ok_iff : f.write path content = .ok after ↔
    ∃ place, f.target path = .ok place ∧ f.put place (.file content) = after := by
  rw [write]
  cases f.target path with
  | error e => simp [Except.map]
  | ok place => simp [Except.map]

theorem write_eq_error_iff : f.write path content = .error e ↔ f.target path = .error e := by
  rw [write]
  cases f.target path with
  | error e' => simp [Except.map]
  | ok place => simp [Except.map]

theorem targetIn_eq_ok {last : List UInt8} {slash : Bool} {parent : Place}
    (aimed : f.targetIn last slash parent = .ok place) :
    f.find? parent = some .directory ∧ slash = false ∧ last ≠ [0x2E] ∧ last ≠ [0x2E, 0x2E] ∧
      place = last :: parent ∧ f.find? place ≠ some .directory := by
  unfold targetIn at aimed
  split at aimed
  next here =>
    split_ifs at aimed with barred
    rw [not_or, not_or, Bool.not_eq_true] at barred
    split at aimed
    · cases aimed
    next free =>
      obtain rfl := Except.ok.inj aimed
      exact ⟨here, barred.1, barred.2.1, barred.2.2, rfl, free⟩
  · cases aimed
  · cases aimed

theorem trimSlashes_reverse {trimmed parents : List (List UInt8)} {last : List UInt8} {slash : Bool}
    (trims : trimSlashes names = (trimmed, slash)) (ends : trimmed.reverse = last :: parents) :
    last ≠ [] ∧ (slash = false → names = parents.reverse ++ [last]) := by
  obtain ⟨rest, shorter⟩ := Prod.mk.inj trims
  have dropped : names.reverse.dropWhile (· = []) = last :: parents := by
    rw [← ends, ← rest, List.reverse_reverse]
  refine ⟨fun none => ?_, fun straight => ?_⟩
  · have stops := List.head_dropWhile_not (· = []) (l := names.reverse) (by simp [dropped])
    simp [dropped, none] at stops
  · -- no slash was dropped, so nothing was
    rw [straight, decide_eq_false_iff_not, Nat.not_lt] at shorter
    have all : names.reverse.dropWhile (· = []) = names.reverse :=
      (List.dropWhile_suffix _).eq_of_length_le (by rwa [List.length_reverse])
    rw [← List.reverse_reverse names, ← all, dropped, List.reverse_cons]

theorem exists_of_target_eq_ok (aimed : f.target path = .ok place) :
    ∃ parents last parent, path.bytes ≠ [] ∧ path.names = parents ++ [last] ∧ last ≠ [] ∧
      f.walk parents = .ok parent ∧ f.targetIn last false parent = .ok place := by
  unfold target at aimed
  split_ifs at aimed with unnamed
  cases trims : trimSlashes path.names with
  | mk trimmed slash =>
    rw [trims] at aimed
    cases ends : trimmed.reverse with
    | nil => simp [ends] at aimed
    | cons last parents =>
      simp only [ends] at aimed
      obtain ⟨named, whole⟩ := trimSlashes_reverse trims ends
      cases walked : f.walk parents.reverse with
      | error e =>
        rw [walked] at aimed
        cases aimed
      | ok parent =>
        rw [walked] at aimed
        have aimed : f.targetIn last slash parent = .ok place := aimed
        obtain ⟨-, rfl, -⟩ := targetIn_eq_ok aimed
        exact ⟨parents.reverse, last, parent, unnamed, whole rfl, named, walked, aimed⟩

end Target

section Writing

/-- One file is as it was written, at the place that its path leads to, and nothing else has
changed. What was there before was no directory. -/
structure Written (f : Files) (path : Path) (content : List UInt8) (after : Files) : Prop where
  read : after.read path = .ok content
  place : ∃ place, after.walk path.names = .ok place ∧ f.find? place ≠ some .directory ∧
    ∀ other, after.find? other = if other = place then some (.file content) else f.find? other
  paths {names : List (List UInt8)} {place : Place} (led : f.walk names = .ok place) :
    after.walk names = .ok place

theorem walk_concat (f : Files) (names : List (List UInt8)) (name : List UInt8) :
    f.walk (names ++ [name]) = (f.walk names).bind (f.walkName · name) := by
  rw [walk, List.foldlM_append]
  simp only [List.foldlM_cons, List.foldlM_nil, bind_pure]
  rfl

theorem read_of_walk (named : path.bytes ≠ []) (led : f.walk path.names = .ok place)
    (found : f.find? place = some (.file content)) : f.read path = .ok content := by
  rw [read, if_neg named, led]
  dsimp only [bind, Except.bind]
  rw [found]

theorem written_put (aimed : f.target path = .ok place) :
    Written f path content (f.put place (.file content)) := by
  obtain ⟨parents, last, parent, unnamed, names, named, walked, aimed⟩ :=
    exists_of_target_eq_ok aimed
  obtain ⟨here, -, dot, dots, rfl, free⟩ := targetIn_eq_ok aimed
  have inside : last :: parent ≠ [] := List.cons_ne_nil _ _
  have keeps : f.Keeps (f.put (last :: parent) (.file content)) := keeps_put inside free
  have self : (f.put (last :: parent) (.file content)).find? (last :: parent) =
      some (.file content) := find?_put_self inside
  -- the walk up to the last name passes through directories alone, and none was replaced
  have led : (f.put (last :: parent) (.file content)).walk path.names = .ok (last :: parent) := by
    rw [names, walk_concat, keeps.walk walked]
    refine walkName_into (keeps.directory here) ?_ (by rw [self]; rfl)
    rw [not_or, not_or]
    exact ⟨named, dot, dots⟩
  refine ⟨?_, ⟨last :: parent, led, free, fun other => ?_⟩, keeps.walk⟩
  · exact read_of_walk unnamed led self
  · split_ifs with same
    · rw [same, self]
    · exact find?_put_of_ne same

theorem written_of_write (written : f.write path content = .ok after) :
    Written f path content after := by
  obtain ⟨place, aimed, rfl⟩ := write_eq_ok_iff.mp written
  exact written_put aimed

def Writable (f : Files) (path : Path) : Prop := ∃ content after, f.write path content = .ok after

theorem Writable.exists_write (writable : f.Writable path) (content : List UInt8) :
    ∃ after, f.write path content = .ok after := by
  obtain ⟨other, after, written⟩ := writable
  obtain ⟨place, aimed, -⟩ := write_eq_ok_iff.mp written
  exact ⟨_, write_eq_ok_iff.mpr ⟨place, aimed, rfl⟩⟩

end Writing

section Errors

def Astray (e : FileError) : Prop := e = .notFound ∨ e = .notDirectory ∨ e = .isDirectory

theorem astray_walkName (failed : f.walkName place name = .error e) : Astray e := by
  unfold walkName at failed
  split at failed
  · exact .inl (Except.error.inj failed).symm
  · exact .inr (.inl (Except.error.inj failed).symm)
  · split_ifs at failed
    exact .inl (Except.error.inj failed).symm

theorem astray_walk (failed : f.walk names = .error e) : Astray e := by
  unfold walk at failed
  generalize [] = start at failed
  induction names generalizing start with
  | nil => cases failed
  | cons name rest ih =>
    rw [List.foldlM_cons] at failed
    cases first : f.walkName start name with
    | error e' =>
      rw [first] at failed
      obtain rfl : e' = e := Except.error.inj failed
      exact astray_walkName first
    | ok next =>
      rw [first] at failed
      exact ih next failed

theorem astray_targetIn {last : List UInt8} {slash : Bool} {parent : Place}
    (failed : f.targetIn last slash parent = .error e) : Astray e := by
  unfold targetIn at failed
  split at failed
  · split_ifs at failed
    · exact .inr (.inr (Except.error.inj failed).symm)
    · split at failed
      · exact .inr (.inr (Except.error.inj failed).symm)
      · cases failed
  · exact .inr (.inl (Except.error.inj failed).symm)
  · exact .inl (Except.error.inj failed).symm

theorem astray_target (failed : f.target path = .error e) : Astray e := by
  unfold target at failed
  split_ifs at failed with unnamed
  · exact .inl (Except.error.inj failed).symm
  · dsimp only at failed
    split at failed
    · exact .inr (.inr (Except.error.inj failed).symm)
    next last parents _ =>
      cases walked : f.walk parents.reverse with
      | error e' =>
        rw [walked] at failed
        obtain rfl : e' = e := Except.error.inj failed
        exact astray_walk walked
      | ok parent =>
        rw [walked] at failed
        exact astray_targetIn failed

theorem astray_write (failed : f.write path content = .error e) : Astray e :=
  astray_target (write_eq_error_iff.mp failed)

end Errors

end FlowLoops.Files
