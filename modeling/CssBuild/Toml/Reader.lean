import CssBuild.Toml.Lexical
import CssBuild.Toml.Table

/-!
# CssBuild.Toml.Reader

TOML text as a tree.

1. A document is a sequence of lines: comments, headers, and keys with their
   values. A byte order mark may precede it.
2. Arrays may span lines and end in a comma, inline tables may not.
3. No more than `maxDepth` arrays and inline tables stand in each other, and a
   dotted key has no more parts; `readTreeWithin` reads with any other limit.
4. A fault of the grammar stands where the reader cannot go on; a fault of a
   key that is there already stands where its line starts.
-/

namespace CssBuild.Toml

open Json (isDigit)

/-- How many arrays and inline tables may stand in each other. -/
def maxDepth : Nat := 79

/-! ## Keys -/

/-- Reads a part of a key. -/
def keyPart (s : List Char) : Except Fault (Found String) :=
  match s with
  | '"' :: rest => (basicString rest).map fun found => (String.ofList found.1, found.2)
  | '\'' :: rest => (literalString rest).map fun found => (String.ofList found.1, found.2)
  | _ =>
    let part := s.takeWhile isBareChar
    if part.isEmpty then .error (absent s)
    else .ok (String.ofList part, s.dropWhile isBareChar)

/-- Reads the parts of a key and the blanks around them; each part takes one unit of fuel. A dot
without a part after it is left unread. -/
def keyParts : (fuel : Nat) → List Char → Except Fault (Found (List String))
  | 0, s => .error (absent s)
  | fuel + 1, s => do
    let (part, rest) ← keyPart (skipBlanks s)
    let after := skipBlanks rest
    match after with
    | '.' :: next =>
      match keyParts fuel next with
      | .ok (more, rest) => .ok (part :: more, rest)
      | .error fault => if fault.soft then .ok ([part], after) else .error fault
    | _ => .ok ([part], after)

/-- Reads a key of no more than `limit` parts: those before its last dot, and the last one. -/
def key (limit : Nat) (s : List Char) : Except Fault (Found (List String × String)) := do
  let (parts, rest) ← labelled "key" (keyParts (s.length + 1) s)
  match parts.getLast? with
  | none => .error (absent s)
  | some last =>
    if limit < parts.length then .error { refused none .tooDeep s with soft := true }
    else .ok ((parts.dropLast, last), rest)

/-! ## Values -/

/-- What a value is expected to be where nothing else fits. -/
def expectedString : List String := [oneOf "\"", oneOf "'"]

/-- Reads a word that stands for a value. -/
def wordValue (word : String) (soft : Bool) (kind : Kind) (tree : Json) (s : List Char) :
    Except Fault (Found (Kind × Json)) :=
  if word.toList.isPrefixOf s then .ok ((kind, tree), s.drop word.length)
  else .error { broken (some "string") expectedString s with soft := soft }

/-- Goes on with another reader where the first one finds that nothing starts. -/
def orElse {α : Type} (first : Except Fault α) (other : Except Fault α) : Except Fault α :=
  match first with
  | .ok found => .ok found
  | .error fault => if fault.soft then other else .error fault

/-- Reads what starts with a digit or a sign. -/
def numeric (s : List Char) : Except Fault (Found (Kind × Json)) :=
  orElse ((dateTime s).map fun found =>
      ((.datetime, Json.single dateKey (.string (String.ofList found.1))), found.2))
    (orElse ((float s).map fun found => ((.float, found.1), found.2))
      ((integer s).map fun found => ((.integer, found.1), found.2)))

/-- Reads a value that is no array and no inline table. -/
def scalar (s : List Char) : Except Fault (Found (Kind × Json)) :=
  match s with
  | [] => .error (absent s)
  | c :: _ =>
    if c = '"' ∨ c = '\'' then
      (string s).map fun found => ((.string, .string (String.ofList found.1)), found.2)
    else if c = '+' ∨ c = '-' ∨ isDigit c then numeric s
    else if c = '_' then .error { broken (some "integer") ["leading digit"] s with soft := true }
    else if c = '.' then
      .error { broken (some "floating-point number") ["leading digit"] s with soft := true }
    else if c = 't' then wordValue "true" false .boolean (.bool true) s
    else if c = 'f' then wordValue "false" false .boolean (.bool false) s
    else if c = 'i' then wordValue "inf" true .float .null s
    else if c = 'n' then wordValue "nan" true .float .null s
    else .error { broken (some "string") expectedString s with soft := true }

/-- Reads the bracket that closes an array. -/
def closeArray (s : List Char) : Except Fault (List Char) :=
  match s with
  | ']' :: rest => .ok rest
  | _ => .error (broken (some "array") [oneOf "]"] s)

/-- Reads the brace that closes an inline table. -/
def closeInline (s : List Char) : Except Fault (List Char) :=
  match s with
  | '}' :: rest => .ok rest
  | _ => .error (broken (some "inline table") [oneOf "\x7d"] s)

/-- Reads the sign between a key and its value, and blanks. -/
def equalsSign (s : List Char) : Except Fault (List Char) :=
  match s with
  | '=' :: rest => .ok (skipBlanks rest)
  | _ => .error (broken none [oneOf ".", oneOf "="] s)

mutual

/-- Reads a value, with room for some more arrays and inline tables in each other. -/
def value (limit : Nat) : (fuel room : Nat) → List Char → Except Fault (Found (Kind × Json))
  | 0, _, s => .error (absent s)
  | fuel + 1, room, s =>
    match s with
    | '[' :: rest =>
      match room with
      | 0 => .error (refused none .tooDeep s)
      | room + 1 => do
        let (found, rest) ← items limit fuel room rest
        .ok ((.array, .array found), rest)
    | '{' :: rest =>
      match room with
      | 0 => .error (refused none .tooDeep s)
      | room + 1 => do
        let (found, after) ← required (pairs limit fuel room rest)
        match inlineTable found with
        | .ok table => do
          let after ← closeInline (skipBlanks after)
          .ok ((.inlineTable, table.tree), after)
        | .error cause => .error (refused none cause rest)
    | _ => scalar s

/-- Reads the items of an array up to its closing bracket. -/
def items (limit : Nat) : (fuel room : Nat) → List Char → Except Fault (Found (List Json))
  | 0, _, s => .error (broken (some "array") [] s)
  | fuel + 1, room, s =>
    match value limit fuel room (skipSpace s) with
    | .error fault =>
      if fault.soft then (closeArray (skipSpace s)).map fun rest => ([], rest)
      else .error fault
    | .ok (found, rest) =>
      match skipSpace rest with
      | ',' :: next => do
        let (more, rest) ← items limit fuel room next
        .ok (found.2 :: more, rest)
      | other => (closeArray other).map fun rest => ([found.2], rest)

/-- Reads a pair of an inline table and the blanks around it. -/
def pair (limit : Nat) : (fuel room : Nat) → List Char → Except Fault (Found Pair)
  | 0, _, s => .error (absent s)
  | fuel + 1, room, s => do
    let ((path, last), rest) ← key limit s
    let rest ← equalsSign rest
    let (found, rest) ← required (value limit fuel room rest)
    .ok (⟨path, last, .value found.1 found.2⟩, skipBlanks rest)

/-- Reads the pairs of an inline table. A comma without a pair after it is left unread. -/
def pairs (limit : Nat) : (fuel room : Nat) → List Char → Except Fault (Found (List Pair))
  | 0, _, s => .ok ([], s)
  | fuel + 1, room, s =>
    match pair limit fuel room s with
    | .error fault => if fault.soft then .ok ([], s) else .error fault
    | .ok (found, rest) =>
      match rest with
      | ',' :: next => do
        let (more, after) ← pairs limit fuel room next
        if more.isEmpty then .ok ([found], rest) else .ok (found :: more, after)
      | _ => .ok ([found], rest)

end

/-- Enough fuel for a text: a value takes at most three units for each of its characters. -/
def fuelFor (s : List Char) : Nat := 3 * s.length + 3

/-! ## Lines -/

/-- The tables read so far. -/
structure Progress where
  /-- All tables. -/
  root : Table
  /-- The path of the last header. -/
  path : List String

/-- What a change of the tables made, or its cause as a fault of a line. -/
def causeAt {α : Type} (s : List Char) (result : Except Cause α) : Except Fault α :=
  result.mapError fun cause => refused none cause s

@[simp] theorem causeAt_ok {α : Type} (s : List Char) (value : α) :
    causeAt s (.ok value) = .ok value := rfl

/-- Reads a line of a key and its value. -/
def keyLine (limit : Nat) (progress : Progress) (s : List Char) :
    Except Fault (Found Progress) := do
  let ((path, last), rest) ← required (key limit s)
  let rest ← equalsSign rest
  let (found, rest) ← required (value limit (fuelFor rest) limit rest)
  let rest ← lineEnd rest
  let item := Item.value found.1 found.2
  let root ← causeAt s (progress.root.update .header
    (Table.addValue .dotted (some progress.path) path last item) [] progress.path)
  .ok (⟨root, progress.path⟩, rest)

/-- Reads the end of a header, which is one bracket or two. -/
def closeHeader (brackets : String) (s : List Char) : Except Fault (List Char) :=
  if brackets.toList.isPrefixOf s then lineEnd (s.drop brackets.length)
  else .error (broken none [oneOf ".", oneOf brackets] s)

/-- Reads a header; `start` is its text from the first bracket on and `s` what follows its
opening brackets. -/
def headerOf (limit : Nat) (brackets : String)
    (add : List String → String → Table → Except Cause Table) (progress : Progress)
    (start s : List Char) : Except Fault (Found Progress) := do
  let ((path, last), rest) ← required (key limit s)
  let rest ← closeHeader brackets rest
  let root ← causeAt start (progress.root.update .header (add path last) [] path)
  .ok (⟨root, path ++ [last]⟩, rest)

/-- Reads a line of a header. -/
def headerLine (limit : Nat) (progress : Progress) (s : List Char) : Except Fault (Found Progress) :=
  labelled "table header" <|
    match s with
    | '[' :: '[' :: rest => headerOf limit "]]" Table.addElement progress s rest
    | '[' :: c :: rest => headerOf limit "]" Table.addTable progress s (c :: rest)
    | _ => .error (broken none [] s)

/-- Reads a line of a comment alone. -/
def commentLine (s : List Char) : Except Fault (List Char) :=
  match skipComment s with
  | [] => .ok []
  | after =>
    match lineBreak? after with
    | some rest => .ok rest
    | none => .error (broken none [] after)

/-- Reads the lines of a document, blanks at their start left out; each takes one unit of fuel. -/
def lines (limit : Nat) : (fuel : Nat) → Progress → List Char → Except Fault Progress
  | 0, progress, _ => .ok progress
  | fuel + 1, progress, s =>
    match s with
    | [] => .ok progress
    | c :: rest =>
      if c = '#' then do
        let rest ← commentLine s
        lines limit fuel progress (skipBlanks rest)
      else if c = '[' then do
        let (progress, rest) ← headerLine limit progress s
        lines limit fuel progress (skipBlanks rest)
      else if c = '\n' then lines limit fuel progress (skipBlanks rest)
      else if c = '\r' then
        match lineBreak? s with
        | some rest => lines limit fuel progress (skipBlanks rest)
        | none => .error (broken none [] s)
      else do
        let (progress, rest) ← keyLine limit progress s
        lines limit fuel progress (skipBlanks rest)

/-- The text after the byte order mark it may start with. -/
def afterMark : List Char → List Char
  | '\ufeff' :: rest => rest
  | s => s

/-- Reads a whole text in which no more than some arrays and inline tables stand in each other. -/
def readTreeWithin (limit : Nat) (text : List Char) : Except Fault Json :=
  let start := skipBlanks (afterMark text)
  (lines limit (start.length + 1) ⟨Table.empty, []⟩ start).map fun progress => progress.root.tree

/-- Reads a whole text. -/
def readTree (text : List Char) : Except Fault Json := readTreeWithin maxDepth text

end CssBuild.Toml
