import CssBuild.Json.Lexical

/-!
# CssBuild.Json.Reader

JSON text as a tree.

1. The tree has an entry for every key of the text, repeated ones included.
2. At most `Json.maxDepth` arrays and objects stand in each other, and doubles
   are rounded step by step.
3. The first fault of the text, from left to right, is the one that is
   reported.
-/

namespace CssBuild.Json

/-- How many arrays and objects may stand in each other. -/
def maxDepth : Nat := 127

/-- The start of the next item of an array, after `first` or a comma. -/
def nextItem (first : Bool) (s : List Char) : Except Fault (List Char) :=
  if first then .ok s
  else match s with
    | ',' :: rest =>
      match skipBlanks rest with
      | [] => failAt .endInValue []
      | ']' :: after => failOn .trailingComma (']' :: after)
      | start => .ok start
    | _ => failOn .expectedItemEnd s

/-- The start of the next key of an object, after `first` or a comma; its quote is read. -/
def nextKey (first : Bool) (s : List Char) : Except Fault (List Char) :=
  if first then
    match s with
    | '"' :: rest => .ok rest
    | _ => failOn .keyNotString s
  else match s with
    | ',' :: rest =>
      match skipBlanks rest with
      | [] => failAt .endInValue []
      | '"' :: start => .ok start
      | '}' :: after => failOn .trailingComma ('}' :: after)
      | other => failOn .keyNotString other
    | _ => failOn .expectedEntryEnd s

/-- Reads the colon after a key. -/
def colon (s : List Char) : Except Fault (List Char) :=
  match skipBlanks s with
  | ':' :: rest => .ok rest
  | [] => failAt .endInObject []
  | other => failOn .expectedColon other

/-- Reads a value that is no array and no object, from its first character. -/
def scalar (rounding : Rounding) : List Char → Except Fault (Found Json)
  | [] => failAt .endInValue []
  | c :: s =>
    if c = 'n' then (word ['u', 'l', 'l'] s).map fun found => (.null, found.2)
    else if c = 't' then (word ['r', 'u', 'e'] s).map fun found => (.bool true, found.2)
    else if c = 'f' then (word ['a', 'l', 's', 'e'] s).map fun found => (.bool false, found.2)
    else if c = '-' then (unsignedNumber rounding true s).map fun found => (.number found.1, found.2)
    else if isDigit c then
      (unsignedNumber rounding false (c :: s)).map fun found => (.number found.1, found.2)
    else if c = '"' then (stringBody s).map fun found => (.string found.1, found.2)
    else failOn .expectedValue (c :: s)

mutual

/-- Reads a value after blanks, with room for some more arrays and objects in each other. -/
def value (rounding : Rounding) : (fuel room : Nat) → List Char → Except Fault (Found Json)
  | 0, _, s => failAt .endInValue s
  | fuel + 1, room, s =>
    match skipBlanks s with
    | '[' :: rest =>
      match room with
      | 0 => failOn .tooDeep ('[' :: rest)
      | room + 1 => do
        let (found, rest) ← items rounding fuel room true rest
        .ok (.array found, rest)
    | '{' :: rest =>
      match room with
      | 0 => failOn .tooDeep ('{' :: rest)
      | room + 1 => do
        let (found, rest) ← entries rounding fuel room true rest
        .ok (.object found, rest)
    | start => scalar rounding start

/-- Reads the items of an array up to its closing bracket. -/
def items (rounding : Rounding) : (fuel room : Nat) → (first : Bool) → List Char →
    Except Fault (Found (List Json))
  | 0, _, _, s => failAt .endInArray s
  | fuel + 1, room, first, s =>
    match skipBlanks s with
    | [] => failAt .endInArray []
    | ']' :: rest => .ok ([], rest)
    | other => do
      let start ← nextItem first other
      let (item, rest) ← value rounding fuel room start
      let (more, rest) ← items rounding fuel room false rest
      .ok (item :: more, rest)

/-- Reads the entries of an object up to its closing brace. -/
def entries (rounding : Rounding) : (fuel room : Nat) → (first : Bool) → List Char →
    Except Fault (Found (List (String × Json)))
  | 0, _, _, s => failAt .endInObject s
  | fuel + 1, room, first, s =>
    match skipBlanks s with
    | [] => failAt .endInObject []
    | '}' :: rest => .ok ([], rest)
    | other => do
      let start ← nextKey first other
      let (key, rest) ← stringBody start
      let rest ← colon rest
      let (item, rest) ← value rounding fuel room rest
      let (more, rest) ← entries rounding fuel room false rest
      .ok ((key, item) :: more, rest)

end

/-- Enough fuel for a text: a value takes at most two units for each of its characters. -/
def fuelFor (s : List Char) : Nat := 2 * s.length + 2

/-- Refuses anything but blanks. -/
def finish (s : List Char) : Except Fault Unit :=
  match skipBlanks s with
  | [] => .ok ()
  | rest => failOn .trailingCharacters rest

/-- Reads a whole text in which no more than some arrays and objects stand in each other, its
doubles rounded in some way. -/
def readCharsWithin (rounding : Rounding) (limit : Nat) (text : List Char) : Except Fault Json := do
  let (found, rest) ← value rounding (fuelFor text) limit text
  finish rest
  .ok found

/-- Reads a whole text. -/
def readChars (text : List Char) : Except Fault Json := readCharsWithin .stepwise maxDepth text

end CssBuild.Json
