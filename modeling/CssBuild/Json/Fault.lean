import CssBuild.Text.Position

/-!
# CssBuild.Json.Fault

Why a text is not JSON, or not JSON of the expected shape, and where.

1. A fault names its cause, what was still unread when it was found, and how
   many further bytes had been looked at.
2. Its line counts from one; its column is the number of bytes of that line
   that were read or looked at.
3. The message ends in the line and the column.
-/

namespace CssBuild.Json

/-- Why reading failed. -/
inductive Cause where
  /-- The text ends where a value has to stand. -/
  | endInValue
  /-- The text ends inside an array. -/
  | endInArray
  /-- The text ends inside an object. -/
  | endInObject
  /-- The text ends inside a string. -/
  | endInString
  /-- A key without its colon. -/
  | expectedColon
  /-- An item followed by neither a comma nor the closing bracket. -/
  | expectedItemEnd
  /-- An entry followed by neither a comma nor the closing brace. -/
  | expectedEntryEnd
  /-- No value starts here. -/
  | expectedValue
  /-- A word that is none of the three literals. -/
  | expectedWord
  /-- A key that is not a string. -/
  | keyNotString
  /-- A backslash with nothing it could escape. -/
  | invalidEscape
  /-- Characters that make no number. -/
  | invalidNumber
  /-- A number beyond the largest double. -/
  | numberOutOfRange
  /-- A high surrogate that is not followed by another escape. -/
  | unpairedHigh
  /-- A surrogate where it cannot stand. -/
  | loneSurrogate
  /-- A raw control character in a string. -/
  | controlCharacter
  /-- A comma before the closing bracket or brace. -/
  | trailingComma
  /-- Something after the value. -/
  | trailingCharacters
  /-- Too many arrays and objects in each other. -/
  | tooDeep
  /-- A value of another kind than the expected one. -/
  | unexpectedKind (found expected : String)
  /-- A name that is none of the choices. -/
  | unknownChoice (found : String) (choices : List String)
  /-- A record without one of its fields. -/
  | missingField (name : String)
  /-- A record that has one of its fields twice. -/
  | repeatedField (name : String)
  /-- A font table that has one of its tokens twice. -/
  | repeatedToken (name : String)
  /-- A record written as an array that ends before a required field. -/
  | tooShort (length : Nat) (name : String) (fields : Nat)
  /-- A record written as an array that goes on after the last field. -/
  | tooLong (length : Nat)
  /-- A choice written as an object that does not have exactly one key. -/
  | notSingle
deriving DecidableEq

/-- A failed reading. -/
structure Fault where
  /-- Why it failed. -/
  cause : Cause
  /-- What was still unread. -/
  rest : List Char
  /-- How many bytes of the unread text had been looked at. -/
  seen : Nat
deriving DecidableEq

/-- The choices of an enumeration, as a sentence lists them. -/
def choiceList : List String → String
  | [] => ""
  | [one] => "\x60" ++ one ++ "\x60"
  | [one, two] => "\x60" ++ one ++ "\x60 or \x60" ++ two ++ "\x60"
  | more => "one of " ++ ", ".intercalate (more.map fun name => "\x60" ++ name ++ "\x60")

/-- A number in decimal. -/
def decimal (n : Nat) : String := String.ofList (Nat.toDigits 10 n)

/-- The wording of a cause. -/
def Cause.message : Cause → String
  | endInValue => "EOF while parsing a value"
  | endInArray => "EOF while parsing a list"
  | endInObject => "EOF while parsing an object"
  | endInString => "EOF while parsing a string"
  | expectedColon => "expected \x60:\x60"
  | expectedItemEnd => "expected \x60,\x60 or \x60]\x60"
  | expectedEntryEnd => "expected \x60,\x60 or \x60\x7d\x60"
  | expectedValue => "expected value"
  | expectedWord => "expected ident"
  | keyNotString => "key must be a string"
  | invalidEscape => "invalid escape"
  | invalidNumber => "invalid number"
  | numberOutOfRange => "number out of range"
  | unpairedHigh => "unexpected end of hex escape"
  | loneSurrogate => "lone leading surrogate in hex escape"
  | controlCharacter => "control character (\\u0000-\\u001F) found while parsing a string"
  | trailingComma => "trailing comma"
  | trailingCharacters => "trailing characters"
  | tooDeep => "recursion limit exceeded"
  | unexpectedKind found expected => "invalid type: " ++ found ++ ", expected " ++ expected
  | unknownChoice found choices =>
    "unknown variant \x60" ++ found ++ "\x60, expected " ++ choiceList choices
  | missingField name => "missing field \x60" ++ name ++ "\x60"
  | repeatedField name => "duplicate field \x60" ++ name ++ "\x60"
  | repeatedToken name => "duplicate font token \x60" ++ name ++ "\x60"
  | tooShort length name fields =>
    "invalid length " ++ decimal length ++ ", expected struct " ++ name ++ " with " ++
      decimal fields ++ (if fields = 1 then " element" else " elements")
  | tooLong length => "invalid length " ++ decimal length ++ ", expected fewer elements in array"
  | notSingle => "invalid value: map, expected map with a single key"

/-- The place `seen` bytes into `rest`, when `rest` starts at the given line and byte column. -/
def lookAhead (place : Position) : (rest : List Char) → (seen : Nat) → Position
  | [], _ => place
  | _, 0 => place
  | c :: rest, seen + 1 =>
    if c = '\n' then lookAhead ⟨place.line + 1, 0⟩ rest seen
    else if c.utf8Size ≤ seen + 1 then
      lookAhead ⟨place.line, place.column + c.utf8Size⟩ rest (seen + 1 - c.utf8Size)
    else ⟨place.line, place.column + (seen + 1)⟩
termination_by rest _ => rest.length

/-- Where a fault was found in a text: its line, and how many bytes of that line were seen. -/
def Fault.place (fault : Fault) (text : List Char) : Position :=
  let read := Position.before text fault.rest
  lookAhead ⟨Position.lineAfter read, Position.byteWidth (Position.lastLine read)⟩
    fault.rest fault.seen

/-- The whole message of a fault found in a text. -/
def Fault.message (fault : Fault) (text : List Char) : String :=
  let place := fault.place text
  fault.cause.message ++ " at line " ++ decimal place.line ++ " column " ++ decimal place.column

end CssBuild.Json
