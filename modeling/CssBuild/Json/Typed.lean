import CssBuild.Json.Reader
import CssBuild.Json.Writer
import CssBuild.Text.Visible

/-!
# CssBuild.Json.Typed

JSON text that is expected to have some shape, read without a tree between.

1. A typed reader stops at the first value of another kind than the expected
   one, so which fault of a text is reported can differ from untyped reading.
2. What is read is returned as a tree in its canonical form: all fields of a
   record in the order of the record, left out ones with their defaults.
3. A record may be written as an object, whose other keys are passed over, or
   as an array of its fields in order.
4. A value that is passed over is looked at only as far as finding its end
   needs: neither its depth nor the surrogates in its strings are checked.
-/

namespace CssBuild.Json

/-- Reads a value, with room for some more arrays and objects in each other. -/
abbrev Typed (α : Type) : Type := (room : Nat) → List Char → Except Fault (Found α)

/-! ## Values of another kind -/

/-- A number as it is named in errors. -/
def numberName : Number → String
  | .integer n _ => "integer \x60" ++ String.ofList (integerText n) ++ "\x60"
  | .double d => "floating point \x60" ++ String.ofList (Layout.document.text d) ++ "\x60"

/-- What a scalar is named in errors. -/
def scalarName : Json → String
  | null => "null"
  | bool true => "boolean \x60true\x60"
  | bool false => "boolean \x60false\x60"
  | number n => numberName n
  | string s => "string " ++ Text.quoted s
  | _ => "value"

/-- The fault of a value, which starts here, that is not as expected. -/
def otherKind {α : Type} (expected : String) (s : List Char) : Except Fault α :=
  match s with
  | '[' :: _ => failAt (.unexpectedKind "sequence" expected) s
  | '{' :: _ => failAt (.unexpectedKind "map" expected) s
  | _ => do
    let (found, rest) ← scalar .stepwise s
    failAt (.unexpectedKind (scalarName found) expected) rest

/-! ## Passing over a value -/

/-- The text after an escape in a string that is passed over. -/
def skipEscape : List Char → Except Fault (List Char)
  | [] => failAt .endInString []
  | c :: s =>
    if c = 'u' then (hexFour s).map Prod.snd
    else if (escapeLetter? c).isSome then .ok s
    else failOn .invalidEscape (c :: s)

/-- The text after a string that is passed over, from after its opening quote; each character
takes one unit of fuel. -/
def skipString : (fuel : Nat) → List Char → Except Fault (List Char)
  | 0, s => failAt .endInString s
  | _ + 1, [] => failAt .endInString []
  | fuel + 1, c :: s =>
    if c = '"' then .ok s
    else if c = '\\' then do
      let rest ← skipEscape s
      skipString fuel rest
    else if c.toNat < 0x20 then failAt .controlCharacter (c :: s)
    else skipString fuel s

/-- The text after the exponent of a number that is passed over, from after its letter. -/
def skipExponent (s : List Char) : Except Fault (List Char) :=
  let digits := match s with
    | '+' :: rest => rest
    | '-' :: rest => rest
    | rest => rest
  match digits with
  | c :: rest => if isDigit c then .ok (rest.dropWhile isDigit) else failOn .invalidNumber digits
  | [] => failOn .invalidNumber []

/-- The text after what may follow the digits before the point. -/
def skipFraction (s : List Char) : Except Fault (List Char) :=
  match s with
  | [] => .ok []
  | c :: rest =>
    if c = '.' then
      match rest with
      | d :: _ =>
        if isDigit d then
          match rest.dropWhile isDigit with
          | e :: after => if e = 'e' ∨ e = 'E' then skipExponent after else .ok (e :: after)
          | [] => .ok []
        else failOn .invalidNumber rest
      | [] => failOn .invalidNumber []
    else if c = 'e' ∨ c = 'E' then skipExponent rest
    else .ok s

/-- The text after a number that is passed over, whose sign has been read. -/
def skipNumber (s : List Char) : Except Fault (List Char) :=
  match s with
  | [] => failOn .invalidNumber []
  | c :: rest =>
    if c = '0' then
      match rest with
      | d :: _ => if isDigit d then failOn .invalidNumber rest else skipFraction rest
      | [] => .ok []
    else if isDigit c then skipFraction (rest.dropWhile isDigit)
    else failOn .invalidNumber s

/-- The text after a scalar that is passed over. -/
def skipScalar (s : List Char) : Except Fault (List Char) :=
  match s with
  | [] => failAt .endInValue []
  | c :: rest =>
    if c = 'n' then (word ['u', 'l', 'l'] rest).map Prod.snd
    else if c = 't' then (word ['r', 'u', 'e'] rest).map Prod.snd
    else if c = 'f' then (word ['a', 'l', 's', 'e'] rest).map Prod.snd
    else if c = '-' then skipNumber rest
    else if isDigit c then skipNumber s
    else if c = '"' then skipString (rest.length + 1) rest
    else failOn .expectedValue s

/-- The text after a key that is passed over and its colon. -/
def skipKey (s : List Char) : Except Fault (List Char) :=
  match skipBlanks s with
  | '"' :: rest => do
    let rest ← skipString (rest.length + 1) rest
    match skipBlanks rest with
    | ':' :: rest => .ok rest
    | [] => failAt .endInObject []
    | other => failOn .expectedColon other
  | [] => failAt .endInObject []
  | other => failOn .keyNotString other

mutual

/-- The text after a value that is passed over. -/
def skipValue : (fuel : Nat) → List Char → Except Fault (List Char)
  | 0, s => failAt .endInValue s
  | fuel + 1, s =>
    match skipBlanks s with
    | '[' :: rest =>
      match skipBlanks rest with
      | ']' :: after => .ok after
      | [] => failAt .endInArray []
      | other => skipItems fuel other
    | '{' :: rest =>
      match skipBlanks rest with
      | '}' :: after => .ok after
      | [] => failAt .endInObject []
      | other => skipEntries fuel other
    | start => skipScalar start

/-- The text after the items of an array that is passed over. -/
def skipItems : (fuel : Nat) → List Char → Except Fault (List Char)
  | 0, s => failAt .endInArray s
  | fuel + 1, s => do
    let rest ← skipValue fuel s
    match skipBlanks rest with
    | ',' :: next => skipItems fuel next
    | ']' :: after => .ok after
    | [] => failAt .endInArray []
    | other => failOn .expectedItemEnd other

/-- The text after the entries of an object that is passed over. -/
def skipEntries : (fuel : Nat) → List Char → Except Fault (List Char)
  | 0, s => failAt .endInObject s
  | fuel + 1, s => do
    let start ← skipKey s
    let rest ← skipValue fuel start
    match skipBlanks rest with
    | ',' :: next => skipEntries fuel next
    | '}' :: after => .ok after
    | [] => failAt .endInObject []
    | other => failOn .expectedEntryEnd other

end

/-- The text after a value of no interest. -/
def passOver (s : List Char) : Except Fault (List Char) := skipValue (2 * s.length + 2) s

/-! ## Ends -/

/-- What is unread once the end of an object has been looked for after a fault in it. -/
def afterObjectFault (s : List Char) : List Char :=
  match skipBlanks s with
  | '}' :: rest => rest
  | other => other

/-- What is unread once the end of an array has been looked for after a fault in it. -/
def afterArrayFault (s : List Char) : List Char :=
  match skipBlanks s with
  | ']' :: rest => rest
  | ',' :: rest => skipBlanks rest
  | other => other

/-- Reads the end of an array of which nothing more is expected. -/
def endOfArray (s : List Char) : Except Fault (List Char) :=
  match skipBlanks s with
  | ']' :: rest => .ok rest
  | ',' :: rest =>
    match skipBlanks rest with
    | ']' :: after => failOn .trailingComma (']' :: after)
    | other => failOn .trailingCharacters other
  | [] => failAt .endInArray []
  | other => failOn .trailingCharacters other

/-- Where the next item of an array starts, or nothing at its end, which stays unread. -/
def nextStart? (first : Bool) (s : List Char) : Except Fault (Option (List Char)) :=
  match skipBlanks s with
  | [] => failAt .endInArray []
  | ']' :: _ => .ok none
  | other => (nextItem first other).map some

/-! ## Scalars -/

/-- Any value. -/
def anything : Typed Json := fun room s =>
  (value .stepwise (fuelFor s) room s).map fun found => (found.1.merged, found.2)

/-- A text; `expected` is what errors say should stand here. -/
def textOf (expected : String) (s : List Char) : Except Fault (Found String) :=
  match skipBlanks s with
  | '"' :: rest => stringBody rest
  | [] => failAt .endInValue []
  | other => otherKind expected other

/-- A text. -/
def text : Typed String := fun _ s => textOf "a string" s

/-- The absent value, which follows the name of a choice written as an object. -/
def absent (s : List Char) : Except Fault (List Char) :=
  match skipBlanks s with
  | 'n' :: rest => (word ['u', 'l', 'l'] rest).map Prod.snd
  | [] => failAt .endInValue []
  | other => otherKind "unit" other

/-- The name of a choice. -/
def choiceName {α : Type} (names : List String) (ofName? : String → Option α) (s : List Char) :
    Except Fault (Found α) := do
  let (name, rest) ← textOf "variant identifier" s
  match ofName? name with
  | some found => .ok (found, rest)
  | none => failAt (.unknownChoice name names) rest

/-- One of some names, or an object whose one key is such a name and whose value is absent. -/
def choice {α : Type} (names : List String) (ofName? : String → Option α) : Typed α := fun room s =>
  match skipBlanks s with
  | '"' :: rest => choiceName names ofName? ('"' :: rest)
  | '{' :: rest =>
    match room with
    | 0 => failOn .tooDeep ('{' :: rest)
    | _ + 1 => do
      let (found, rest) ← choiceName names ofName? rest
      let rest ← colon rest
      let rest ← absent rest
      match skipBlanks rest with
      | '}' :: after => .ok (found, after)
      | [] => failAt .endInObject []
      | other => failAt .expectedValue other
  | [] => failAt .endInValue []
  | other => failOn .expectedValue other

/-! ## Containers -/

/-- The items of a list up to its closing bracket; each takes one unit of fuel. -/
def listItems {α : Type} (item : List Char → Except Fault (Found α)) :
    (fuel : Nat) → (first : Bool) → List Char → Except Fault (Found (List α))
  | 0, _, s => failAt .endInArray s
  | fuel + 1, first, s => do
    match ← nextStart? first s with
    | none => .ok ([], (skipBlanks s).drop 1)
    | some start => do
      let (found, rest) ← item start
      let (more, rest) ← listItems item fuel false rest
      .ok (found :: more, rest)

/-- A list. -/
def list {α : Type} (item : Typed α) : Typed (List α) := fun room s =>
  match skipBlanks s with
  | '[' :: rest =>
    match room with
    | 0 => failOn .tooDeep ('[' :: rest)
    | room + 1 => listItems (item room) (rest.length + 1) true rest
  | [] => failAt .endInValue []
  | other => otherKind "a sequence" other

/-- The next key of an object with its colon, or nothing at its end, which is read. -/
def nextEntry? (first : Bool) (s : List Char) : Except Fault (Option String × List Char) :=
  match skipBlanks s with
  | [] => failAt .endInObject []
  | '}' :: rest => .ok (none, rest)
  | other => do
    let start ← nextKey first other
    let (key, rest) ← stringBody start
    .ok (some key, rest)

/-- The entries of a mapping up to its closing brace; each takes one unit of fuel. A key that
`refused` has a cause against is a fault once its value has been read. -/
def mapEntries {α : Type} (item : List Char → Except Fault (Found α))
    (refused : List String → String → Option Cause) :
    (fuel : Nat) → (seen : List String) → (first : Bool) → List Char →
      Except Fault (Found (List (String × α)))
  | 0, _, _, s => failAt .endInObject s
  | fuel + 1, seen, first, s => do
    match ← nextEntry? first s with
    | (none, rest) => .ok ([], rest)
    | (some key, rest) => do
      let rest ← colon rest
      let (found, rest) ← item rest
      match refused seen key with
      | some cause => failAt cause (afterObjectFault rest)
      | none => do
        let (more, rest) ← mapEntries item refused fuel (key :: seen) false rest
        .ok ((key, found) :: more, rest)

/-- A mapping; `expected` is what errors say should stand here. -/
def mapping {α : Type} (expected : String) (item : Typed α)
    (refused : List String → String → Option Cause) : Typed (List (String × α)) := fun room s =>
  match skipBlanks s with
  | '{' :: rest =>
    match room with
    | 0 => failOn .tooDeep ('{' :: rest)
    | room + 1 => mapEntries (item room) refused (rest.length + 1) [] true rest
  | [] => failAt .endInValue []
  | other => otherKind expected other

/-! ## Records -/

/-- A field of a record. -/
structure Field where
  /-- Its key. -/
  name : String
  /-- Its value where it is left out, if it can be. -/
  default? : Option Json
  /-- Reads its value. -/
  reader : Typed Json

/-- The fields of a record in order, those left out with their defaults. -/
def fillFields (given : List (String × Json)) : List Field → Except Cause (List (String × Json))
  | [] => .ok []
  | field :: rest =>
    match (Entries.find? given field.name).or field.default? with
    | none => .error (.missingField field.name)
    | some found => do
      let more ← fillFields given rest
      .ok ((field.name, found) :: more)

/-- The fields of a record written as an object, up to its closing brace; each key takes one unit
of fuel. -/
def objectFields (fields : List Field) (room : Nat) :
    (fuel : Nat) → (given : List (String × Json)) → (first : Bool) → List Char →
      Except Fault (Found (List (String × Json)))
  | 0, _, _, s => failAt .endInObject s
  | fuel + 1, given, first, s => do
    match ← nextEntry? first s with
    | (none, rest) => .ok (given, rest)
    | (some key, rest) =>
      match fields.find? fun field => field.name = key with
      | none => do
        let rest ← colon rest
        let rest ← passOver rest
        objectFields fields room fuel given false rest
      | some field =>
        if Entries.has given key then failAt (.repeatedField key) (afterObjectFault rest)
        else do
          let rest ← colon rest
          let (found, rest) ← field.reader room rest
          objectFields fields room fuel ((key, found) :: given) false rest

/-- The fields of a record written as an array, up to the end of the last one. `tooShort` is the
cause of an array that ends before the field of some number. -/
def arrayFields (room : Nat) (tooShort : Nat → Cause) :
    (i : Nat) → (first : Bool) → List Field → List Char →
      Except Fault (Found (List (String × Json)))
  | _, _, [], s => .ok ([], s)
  | i, first, field :: fields, s => do
    match ← nextStart? first s with
    | some start => do
      let (found, rest) ← field.reader room start
      let (more, rest) ← arrayFields room tooShort (i + 1) false fields rest
      .ok ((field.name, found) :: more, rest)
    | none =>
      match field.default? with
      | none => failAt (tooShort i) (afterArrayFault s)
      | some found => do
        let (more, rest) ← arrayFields room tooShort (i + 1) first fields s
        .ok ((field.name, found) :: more, rest)

/-- A record. -/
def record (name : String) (fields : List Field) : Typed Json := fun room s =>
  match skipBlanks s with
  | '{' :: rest =>
    match room with
    | 0 => failOn .tooDeep ('{' :: rest)
    | room + 1 => do
      let (given, rest) ← objectFields fields room (rest.length + 1) [] true rest
      match fillFields given fields with
      | .ok all => .ok (.object all, rest)
      | .error cause => failAt cause rest
  | '[' :: rest =>
    match room with
    | 0 => failOn .tooDeep ('[' :: rest)
    | room + 1 => do
      let tooShort (i : Nat) : Cause := .tooShort i name fields.length
      let (all, rest) ← arrayFields room tooShort 0 true fields rest
      let rest ← endOfArray rest
      .ok (.object all, rest)
  | [] => failAt .endInValue []
  | other => otherKind ("struct " ++ name) other

/-! ## Whole texts -/

/-- Reads a whole text. -/
def readTyped {α : Type} (reader : Typed α) (text : List Char) : Except Fault α := do
  let (found, rest) ← reader maxDepth text
  finish rest
  .ok found

end CssBuild.Json
