import CssBuild.Decimal.Layout
import CssBuild.Json.Basic

/-!
# CssBuild.Json.Writer

Trees as JSON text, compact or indented.

1. Strings are written in double quotes; the quote, the backslash and the
   control characters below a space are escaped, the latter by a letter where
   JSON has one and by four lower case hexadecimal digits where it has none.
   Every other character stands for itself.
2. Integers are written in decimal and doubles in the document layout.
3. Compact text has no blanks. Indented text puts each item and entry on its
   own line, two blanks deeper than its container, and an empty container on
   one line.
-/

namespace CssBuild.Json

/-! ## Leaves -/

/-- The lower case hexadecimal digit of a number below sixteen. -/
def hexDigit (n : Nat) : Char := Nat.digitChar n

/-- A character as it stands in a string. -/
def escaped (c : Char) : List Char :=
  if c = '"' then ['\\', '"']
  else if c = '\\' then ['\\', '\\']
  else if c = '\n' then ['\\', 'n']
  else if c = '\t' then ['\\', 't']
  else if c = '\r' then ['\\', 'r']
  else if c = '\x08' then ['\\', 'b']
  else if c = '\x0c' then ['\\', 'f']
  else if c.toNat < 0x20 then
    ['\\', 'u', '0', '0', hexDigit (c.toNat / 16), hexDigit (c.toNat % 16)]
  else [c]

/-- A text as a string. -/
def quoted (s : String) : List Char := '"' :: (s.toList.flatMap escaped ++ ['"'])

/-- An integer in decimal. -/
def integerText (n : Int) : List Char :=
  if n < 0 then '-' :: Layout.digits n.natAbs else Layout.digits n.natAbs

/-- A number. -/
def numberText : Number → List Char
  | .integer value _ => integerText value
  | .double value => Layout.document.text value

/-! ## Compact text -/

mutual

/-- A tree without blanks. -/
def compactChars : Json → List Char
  | null => ['n', 'u', 'l', 'l']
  | bool true => ['t', 'r', 'u', 'e']
  | bool false => ['f', 'a', 'l', 's', 'e']
  | number n => numberText n
  | string s => quoted s
  | array items => '[' :: (compactItems true items ++ [']'])
  | object entries => '{' :: (compactEntries true entries ++ ['}'])

/-- Items, each but the first after a comma. -/
def compactItems (first : Bool) : List Json → List Char
  | [] => []
  | item :: rest =>
    (if first then [] else [',']) ++ compactChars item ++ compactItems false rest

/-- Entries, each but the first after a comma. -/
def compactEntries (first : Bool) : List (String × Json) → List Char
  | [] => []
  | (key, value) :: rest =>
    (if first then [] else [',']) ++ quoted key ++ ':' :: (compactChars value ++
      compactEntries false rest)

end

/-- The compact text of a tree. -/
def compact (tree : Json) : String := String.ofList tree.compactChars

/-! ## Indented text -/

/-- A new line at a depth. -/
def lineBreak (depth : Nat) : List Char := '\n' :: List.replicate (2 * depth) ' '

mutual

/-- A tree whose first line starts at some depth. -/
def prettyChars (depth : Nat) : Json → List Char
  | null => ['n', 'u', 'l', 'l']
  | bool true => ['t', 'r', 'u', 'e']
  | bool false => ['f', 'a', 'l', 's', 'e']
  | number n => numberText n
  | string s => quoted s
  | array [] => ['[', ']']
  | array (item :: rest) =>
    '[' :: (prettyItems depth true (item :: rest) ++ lineBreak depth ++ [']'])
  | object [] => ['{', '}']
  | object (entry :: rest) =>
    '{' :: (prettyEntries depth true (entry :: rest) ++ lineBreak depth ++ ['}'])

/-- Items, each on a line of its own below its container's depth. -/
def prettyItems (depth : Nat) (first : Bool) : List Json → List Char
  | [] => []
  | item :: rest =>
    (if first then [] else [',']) ++ lineBreak (depth + 1) ++ prettyChars (depth + 1) item ++
      prettyItems depth false rest

/-- Entries, each on a line of its own below its container's depth. -/
def prettyEntries (depth : Nat) (first : Bool) : List (String × Json) → List Char
  | [] => []
  | (key, value) :: rest =>
    (if first then [] else [',']) ++ lineBreak (depth + 1) ++ quoted key ++
      ':' :: ' ' :: (prettyChars (depth + 1) value ++ prettyEntries depth false rest)

end

/-- The indented text of a tree. -/
def pretty (tree : Json) : String := String.ofList (tree.prettyChars 0)

end CssBuild.Json
