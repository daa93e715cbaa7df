/-!
JSON values and their two written forms: compact, and set out over lines with two spaces for each
level. Strings escape the quote, the backslash and the control characters, and nothing else.
-/

namespace FlowLoops.Json

inductive Value where
  | null
  | number (n : Nat)
  | string (s : String)
  | list (items : List Value)
  | object (members : List (String × Value))

def hexDigit (n : Nat) : Char := if n < 10 then Char.ofNat (48 + n) else Char.ofNat (87 + n)

def escapeChar (c : Char) : List Char :=
  if c = '"' then ['\\', '"']
  else if c = '\\' then ['\\', '\\']
  else if c = '\n' then ['\\', 'n']
  else if c = '\r' then ['\\', 'r']
  else if c = '\t' then ['\\', 't']
  else if c.toNat = 8 then ['\\', 'b']
  else if c.toNat = 12 then ['\\', 'f']
  else if c.toNat < 32 then ['\\', 'u', '0', '0', hexDigit (c.toNat / 16), hexDigit (c.toNat % 16)]
  else [c]

def quote (s : String) : List Char := '"' :: s.toList.flatMap escapeChar ++ ['"']

namespace Value

mutual

def compact : Value → List Char
  | null => "null".toList
  | number n => (toString n).toList
  | string s => quote s
  | list items => '[' :: compactItems items
  | object members => '\x7b' :: compactMembers members

/-- The rest of a list, closing bracket included. -/
def compactItems : List Value → List Char
  | [] => [']']
  | [v] => v.compact ++ [']']
  | v :: rest => v.compact ++ ',' :: compactItems rest

def compactMembers : List (String × Value) → List Char
  | [] => ['\x7d']
  | [(key, v)] => quote key ++ ':' :: v.compact ++ ['\x7d']
  | (key, v) :: rest => quote key ++ ':' :: v.compact ++ ',' :: compactMembers rest

end

def newline (level : Nat) : List Char := '\n' :: List.replicate (2 * level) ' '

mutual

def pretty (level : Nat) : Value → List Char
  | null => "null".toList
  | number n => (toString n).toList
  | string s => quote s
  | list [] => ['[', ']']
  | list (v :: rest) => '[' :: newline (level + 1) ++ v.pretty (level + 1) ++ prettyItems level rest
  | object [] => ['\x7b', '\x7d']
  | object ((key, v) :: rest) =>
    '\x7b' :: newline (level + 1) ++ quote key ++ ':' :: ' ' :: v.pretty (level + 1) ++
      prettyMembers level rest

def prettyItems (level : Nat) : List Value → List Char
  | [] => newline level ++ [']']
  | v :: rest => ',' :: newline (level + 1) ++ v.pretty (level + 1) ++ prettyItems level rest

def prettyMembers (level : Nat) : List (String × Value) → List Char
  | [] => newline level ++ ['\x7d']
  | (key, v) :: rest =>
    ',' :: newline (level + 1) ++ quote key ++ ':' :: ' ' :: v.pretty (level + 1) ++
      prettyMembers level rest

end

end Value

end FlowLoops.Json
