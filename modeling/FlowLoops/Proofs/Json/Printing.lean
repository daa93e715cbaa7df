import FlowLoops.Proofs.Json.Spelling
import FlowLoops.Proofs.Json.Layout

/-! Printed values. Both written forms of a value are texts of one tree, that differ in their blanks
only. -/

namespace FlowLoops.Json

section Digits

theorem head_toDigits {n : Nat} (positive : 0 < n) : (Nat.toDigits 10 n).head? ≠ some '0' := by
  induction n using Nat.strongRecOn with
  | ind n ih =>
    by_cases small : n < 10
    · rw [Nat.toDigits_of_lt_base small]
      have each : ∀ k < 10, 0 < k → [k.digitChar].head? ≠ some '0' := by decide
      exact each n small positive
    · have tens : 10 ≤ n := Nat.le_of_not_lt small
      have lower : n / 10 < n := Nat.div_lt_self positive (by decide)
      obtain ⟨d, more, shown⟩ := List.exists_cons_of_ne_nil (Nat.toDigits_ne_nil (n := n / 10) (b := 10))
      have first := ih (n / 10) lower (Nat.div_pos tens (by decide))
      rw [Nat.toDigits_of_base_le (by decide) tens, shown, List.cons_append]
      rw [shown] at first
      exact first

theorem isNumeral_toDigits (n : Nat) : IsNumeral (Nat.toDigits 10 n) := by
  have digits : Digits (Nat.toDigits 10 n) :=
    ⟨Nat.toDigits_ne_nil, fun c hc => Nat.isDigit_of_mem_toDigits (by decide) (by decide) hc⟩
  have lead : (Nat.toDigits 10 n).head? = some '0' → Nat.toDigits 10 n = ['0'] := by
    intro zero
    rcases Nat.eq_zero_or_pos n with rfl | positive
    · rfl
    · exact absurd zero (head_toDigits positive)
  have whole := IsNumeral.intro (.inl rfl) digits lead .none .none
  rw [List.append_nil, List.append_nil, List.nil_append] at whole
  exact whole

end Digits

def Numeral.ofNat (n : Nat) : Numeral := ⟨Nat.toDigits 10 n, isNumeral_toDigits n⟩

section Escapes

def HexDigit.ofNat (n : Nat) : HexDigit where
  char := hexDigit (n % 16)
  listed := by
    have each : ∀ k < 16, hexDigit k ∈ ['0', '1', '2', '3', '4', '5', '6', '7', '8', '9', 'a', 'b',
      'c', 'd', 'e', 'f', 'A', 'B', 'C', 'D', 'E', 'F'] := by decide
    exact each _ (Nat.mod_lt n (by decide))

namespace Piece

def ofChar (c : Char) : Piece :=
  if quote : c = '"' then .short '"' '"' (by decide)
  else if slash : c = '\\' then .short '\\' '\\' (by decide)
  else if c = '\n' then .short 'n' '\n' (by decide)
  else if c = '\r' then .short 'r' '\r' (by decide)
  else if c = '\t' then .short 't' '\t' (by decide)
  else if c.toNat = 8 then .short 'b' (Char.ofNat 8) (by decide)
  else if c.toNat = 12 then .short 'f' (Char.ofNat 12) (by decide)
  else if control : c.toNat < 32 then
    .hex (.ofNat 0) (.ofNat 0) (.ofNat (c.toNat / 16)) (.ofNat (c.toNat % 16))
  else .plain c ⟨quote, slash, Nat.le_of_not_lt control⟩

theorem unit_ofNat {n : Nat} (small : n < 32) :
    unit (.ofNat 0) (.ofNat 0) (.ofNat (n / 16)) (.ofNat (n % 16)) = n := by
  have each : ∀ n < 32, unit (.ofNat 0) (.ofNat 0) (.ofNat (n / 16)) (.ofNat (n % 16)) = n := by
    decide
  exact each n small

theorem text_ofChar (c : Char) : (ofChar c).text = escapeChar c := by
  unfold ofChar escapeChar
  split_ifs with h1 h2 h3 h4 h5 h6 h7 control
  · rfl
  · rfl
  · rfl
  · rfl
  · rfl
  · rfl
  · rfl
  · have high : c.toNat / 16 % 16 = c.toNat / 16 := Nat.mod_eq_of_lt (by omega)
    simp only [text, HexDigit.ofNat, high, Nat.mod_mod]
    rfl
  · rfl

theorem chars?_ofChar_cons (c : Char) (more : List Piece) :
    chars? (ofChar c :: more) = (chars? more).map (c :: ·) := by
  unfold ofChar
  split_ifs with h1 h2 h3 h4 h5 h6 h7 control
  · rw [h1, chars?]
  · rw [h2, chars?]
  · rw [h3, chars?]
  · rw [h4, chars?]
  · rw [h5, chars?]
  · rw [chars?, ← h6, Char.ofNat_toNat]
  · rw [chars?, ← h7, Char.ofNat_toNat]
  · have number := unit_ofNat control
    have high : ¬ High c.toNat := by
      rw [high_iff]
      omega
    have low : ¬ Low c.toNat := by
      rw [low_iff]
      omega
    rw [← number] at high low
    rw [chars?_hex high low, number, Char.ofNat_toNat]
  · rw [chars?]

def ofString (s : String) : List Piece := s.toList.map ofChar

theorem spell_ofString (s : String) : Spell (ofString s) s := by
  have each : ∀ cs : List Char, chars? (cs.map ofChar) = some cs := by
    intro cs
    induction cs with
    | nil => rw [List.map_nil, chars?]
    | cons c cs ih => rw [List.map_cons, chars?_ofChar_cons, ih, Option.map_some]
  exact each s.toList

theorem quote_eq (s : String) : quote s = (Token.string (ofString s)).text := by
  unfold quote ofString
  rw [Token.text, List.flatMap_map]
  simp only [text_ofChar]
  rfl

end Piece

end Escapes

namespace Value

mutual

def tree : Value → Tree
  | null => .null
  | number n => .number (.ofNat n)
  | string s => .string (Piece.ofString s)
  | list items => .list (trees items)
  | object members => .object (memberTrees members)

def trees : List Value → List Tree
  | [] => []
  | v :: rest => v.tree :: trees rest

def memberTrees : List (String × Value) → List Member
  | [] => []
  | (key, v) :: rest => (Piece.ofString key, v.tree) :: memberTrees rest

end

theorem trees_eq_map (items : List Value) : trees items = items.map tree := by
  induction items with
  | nil => rw [trees, List.map_nil]
  | cons v items ih => rw [trees, List.map_cons, ih]

theorem memberTrees_eq_map (members : List (String × Value)) :
    memberTrees members = members.map fun m => (Piece.ofString m.1, m.2.tree) := by
  induction members with
  | nil => rw [memberTrees, List.map_nil]
  | cons m members ih => rw [memberTrees, List.map_cons, ih]

end Value

section Layouts
variable {ts : List Token} {rest : List Char}

theorem Laid.token (t : Token) (laid : Laid ts rest) : Laid (t :: ts) (t.text ++ rest) := by
  have noBlank : ∀ b ∈ ([] : List Char), isBlank b := fun b hb => absurd hb List.not_mem_nil
  exact .cons t noBlank laid

theorem Laid.newline (level : Nat) (laid : Laid ts rest) : Laid ts (Value.newline level ++ rest) := by
  apply laid.blanks
  unfold Value.newline
  refine List.forall_mem_cons.mpr ⟨rfl, fun _ hc => ?_⟩
  rw [List.eq_of_mem_replicate hc]
  rfl

theorem Laid.space (laid : Laid ts rest) : Laid ts (' ' :: rest) := by
  have blank : ∀ b ∈ [' '], isBlank b := List.forall_mem_singleton.mpr rfl
  exact laid.blanks blank

theorem Laid.number (n : Nat) (laid : Laid ts rest) :
    Laid (.number (.ofNat n) :: ts) ((toString n).toList ++ rest) := by
  rw [Nat.toString_eq_repr, Nat.toList_repr]
  exact laid.token (.number (.ofNat n))

theorem Laid.quoted (s : String) (laid : Laid ts rest) :
    Laid (.string (Piece.ofString s) :: ts) (quote s ++ rest) := by
  rw [Piece.quote_eq]
  exact laid.token _

theorem Laid.key (key : String) (laid : Laid ts rest) :
    Laid (.string (Piece.ofString key) :: .colon :: ts) (quote key ++ ':' :: rest) :=
  (laid.token .colon).quoted key

namespace Value

mutual

theorem laid_compact (v : Value) {ts : List Token} {rest : List Char} (laid : Laid ts rest) :
    Laid (v.tree.tokens ++ ts) (v.compact ++ rest) := by
  match v with
  | null => exact laid.token .null
  | number n => exact laid.number n
  | string s => exact laid.quoted s
  | list items =>
    rw [tree, Tree.tokens_list, compact]
    exact (laid_compactItems items laid).token (.opening .list)
  | object members =>
    rw [tree, Tree.tokens_object, compact]
    exact (laid_compactMembers members laid).token (.opening .object)

theorem laid_compactItems (items : List Value) {ts : List Token} {rest : List Char}
    (laid : Laid ts rest) : Laid (Tree.inList (trees items) ++ ts) (compactItems items ++ rest) := by
  match items with
  | [] => exact laid.token (.closing .list)
  | [v] =>
    rw [trees, trees, Tree.inList, Tree.moreItems, compactItems, List.append_assoc, List.append_assoc]
    exact laid_compact v (laid.token (.closing .list))
  | v :: w :: others =>
    have after := (laid_compactItems (w :: others) laid).token .comma
    rw [trees, Tree.inList] at after
    rw [trees, trees, Tree.inList, Tree.moreItems, compactItems, List.append_assoc, List.append_assoc]
    · exact laid_compact v after
    · simp

theorem laid_compactMembers (members : List (String × Value)) {ts : List Token} {rest : List Char}
    (laid : Laid ts rest) :
    Laid (Tree.inObject (memberTrees members) ++ ts) (compactMembers members ++ rest) := by
  match members with
  | [] => exact laid.token (.closing .object)
  | [(key, v)] =>
    have whole := (laid_compact v (laid.token (.closing .object))).key key
    rw [memberTrees, memberTrees, Tree.inObject, Tree.moreMembers, compactMembers]
    simpa only [Token.text, Bracket.close, List.append_assoc, List.cons_append, List.nil_append] using whole
  | (key, v) :: (key', w) :: others =>
    have after := (laid_compactMembers ((key', w) :: others) laid).token .comma
    rw [memberTrees, Tree.inObject] at after
    have whole := (laid_compact v after).key key
    rw [memberTrees, memberTrees, Tree.inObject, Tree.moreMembers, compactMembers]
    · simpa only [Token.text, List.append_assoc, List.cons_append, List.nil_append] using whole
    · simp

end

mutual

theorem laid_pretty (level : Nat) (v : Value) {ts : List Token} {rest : List Char}
    (laid : Laid ts rest) : Laid (v.tree.tokens ++ ts) (v.pretty level ++ rest) := by
  match v with
  | null => exact laid.token .null
  | number n => exact laid.number n
  | string s => exact laid.quoted s
  | list [] => exact (laid.token (.closing .list)).token (.opening .list)
  | list (v :: others) =>
    have inside := laid_pretty (level + 1) v (laid_prettyItems level others laid)
    have whole := (inside.newline (level + 1)).token (.opening .list)
    rw [tree, trees, Tree.tokens, pretty]
    simpa only [Token.text, List.append_assoc, List.cons_append, List.nil_append] using whole
  | object [] => exact (laid.token (.closing .object)).token (.opening .object)
  | object ((key, v) :: others) =>
    have value := laid_pretty (level + 1) v (laid_prettyMembers level others laid)
    have inside := (value.space.key key).newline (level + 1)
    have whole := inside.token (.opening .object)
    rw [tree, memberTrees, Tree.tokens, pretty]
    simpa only [Token.text, List.append_assoc, List.cons_append, List.nil_append] using whole

theorem laid_prettyItems (level : Nat) (items : List Value) {ts : List Token} {rest : List Char}
    (laid : Laid ts rest) :
    Laid (Tree.moreItems (trees items) ++ ts) (prettyItems level items ++ rest) := by
  match items with
  | [] =>
    have closing := (laid.token (.closing .list)).newline level
    rw [trees, Tree.moreItems, prettyItems, List.append_assoc]
    exact closing
  | v :: others =>
    have value := laid_pretty (level + 1) v (laid_prettyItems level others laid)
    have whole := (value.newline (level + 1)).token .comma
    rw [trees, Tree.moreItems, prettyItems]
    simpa only [Token.text, List.append_assoc, List.cons_append, List.nil_append] using whole

theorem laid_prettyMembers (level : Nat) (members : List (String × Value)) {ts : List Token}
    {rest : List Char} (laid : Laid ts rest) :
    Laid (Tree.moreMembers (memberTrees members) ++ ts) (prettyMembers level members ++ rest) := by
  match members with
  | [] =>
    have closing := (laid.token (.closing .object)).newline level
    rw [memberTrees, Tree.moreMembers, prettyMembers, List.append_assoc]
    exact closing
  | (key, v) :: others =>
    have value := laid_pretty (level + 1) v (laid_prettyMembers level others laid)
    have whole := ((value.space.key key).newline (level + 1)).token .comma
    rw [memberTrees, Tree.moreMembers, prettyMembers]
    simpa only [Token.text, List.append_assoc, List.cons_append, List.nil_append] using whole

end

theorem isText_compact (v : Value) : IsText v.tree v.compact := by
  have whole := laid_compact v (.nil fun b hb => absurd hb List.not_mem_nil)
  rw [List.append_nil, List.append_nil] at whole
  exact whole

theorem isText_pretty (level : Nat) (v : Value) : IsText v.tree (v.pretty level) := by
  have whole := laid_pretty level v (.nil fun b hb => absurd hb List.not_mem_nil)
  rw [List.append_nil, List.append_nil] at whole
  exact whole

end Value

end Layouts

end FlowLoops.Json
