import FlowLoops.Json.Value
import FlowLoops.Text.Quoted
import FlowLoops.Decimal.Shortest

/-!
Why a JSON text is rejected, and where. A place is given by how many bytes were left unread, from
which the line and the column, both counted in the bytes of the whole text, are worked out.
-/

namespace FlowLoops.Json

inductive Found where
  | null
  | boolean (value : Bool)
  | integer (value : Int)
  /-- a number in binary floating point, by its bits -/
  | float (bits : UInt64)
  | string (value : String)
  | list
  | object
deriving DecidableEq, Repr

namespace Found

def text : Found → String
  | null => "null"
  | boolean value => s!"boolean `{value}`"
  | integer value => s!"integer `{value}`"
  | float bits => "floating point `" ++ Decimal.plain bits ++ "`"
  | string value => "string " ++ Text.quoted value
  | list => "sequence"
  | object => "map"

end Found

inductive Cause where
  | endInList | endInObject | endInString | endInValue
  | noColon | noListEnd | noObjectEnd | noWord | noValue
  | badEscape | badNumber | numberTooLarge | controlCharacter | keyNotString
  | loneSurrogate | trailingComma | trailingText | cutSurrogate
  | wrongType (found : Found) (expected : String)
  | wrongLength (length : Nat) (expected : String)
  | missingField (name : String)
  | repeatedField (name : String)
deriving DecidableEq, Repr

def Cause.text : Cause → String
  | .endInList => "EOF while parsing a list"
  | .endInObject => "EOF while parsing an object"
  | .endInString => "EOF while parsing a string"
  | .endInValue => "EOF while parsing a value"
  | .noColon => "expected `:`"
  | .noListEnd => "expected `,` or `]`"
  | .noObjectEnd => "expected `,` or `\x7d`"
  | .noWord => "expected ident"
  | .noValue => "expected value"
  | .badEscape => "invalid escape"
  | .badNumber => "invalid number"
  | .numberTooLarge => "number out of range"
  | .controlCharacter => "control character (\\u0000-\\u001F) found while parsing a string"
  | .keyNotString => "key must be a string"
  | .loneSurrogate => "lone leading surrogate in hex escape"
  | .trailingComma => "trailing comma"
  | .trailingText => "trailing characters"
  | .cutSurrogate => "unexpected end of hex escape"
  | .wrongType found expected => "invalid type: " ++ found.text ++ ", expected " ++ expected
  | .wrongLength length expected => s!"invalid length {length}, expected " ++ expected
  | .missingField name => "missing field `" ++ name ++ "`"
  | .repeatedField name => "duplicate field `" ++ name ++ "`"

/-- A cause, and how many bytes were unread when it was found. -/
structure Reject where
  cause : Cause
  unread : Nat
deriving DecidableEq, Repr

def byteLength (cs : List Char) : Nat := cs.foldr (fun c n => c.utf8Size + n) 0

namespace Reject

def before (cause : Cause) (rest : List Char) : Reject := ⟨cause, byteLength rest⟩

/-- A rejection at the next byte, which counts as read if there is one. -/
def past (cause : Cause) (rest : List Char) : Reject := ⟨cause, byteLength rest - 1⟩

end Reject

def positionFrom (line column : Nat) : List Char → Nat → Nat × Nat
  | [], _ => (line, column)
  | c :: rest, offset =>
    if offset < c.utf8Size then (line, column + offset)
    else if c = '\n' then positionFrom (line + 1) 0 rest (offset - 1)
    else positionFrom line (column + c.utf8Size) rest (offset - c.utf8Size)

def position (text : List Char) (offset : Nat) : Nat × Nat := positionFrom 1 0 text offset

def Reject.message (r : Reject) (text : List Char) : String :=
  let (line, column) := position text (byteLength text - r.unread)
  r.cause.text ++ s!" at line {line} column {column}"

end FlowLoops.Json
