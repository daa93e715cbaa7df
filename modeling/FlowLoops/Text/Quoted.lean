import FlowLoops.Text.Hidden

/-!
Strings as they are quoted in messages: between quotes, with the usual escapes, and with the
characters that cannot be seen shown by their numbers.
-/

namespace FlowLoops.Text

def shown (c : Char) : List Char :=
  if c = '"' then ['\\', '"']
  else if c = '\\' then ['\\', '\\']
  else if c = '\n' then ['\\', 'n']
  else if c = '\r' then ['\\', 'r']
  else if c = '\t' then ['\\', 't']
  else if c.toNat = 0 then ['\\', '0']
  else if isHidden c then
    ['\\', 'u', '\x7b'] ++ Nat.toDigits 16 c.toNat ++ ['\x7d']
  else [c]

def quoted (s : String) : String := String.ofList ('"' :: s.toList.flatMap shown ++ ['"'])

end FlowLoops.Text
