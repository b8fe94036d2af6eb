import CssBuild.Config.Basic
import CssBuild.Json.Typed

/-!
# CssBuild.Config.FromTree

Configurations as the values of trees.

1. Each part is the value of a tree of the right kind, whatever the schema
   asks beyond that: patterns need not be globs and sequences may be empty.
2. A record is written as an object, whose other keys are passed over, or as
   an array of its fields in order. Fields that are left out keep the value
   of the record's draft, unless they are required.
3. The first value of another kind is reported, objects in the order of their
   entries; a field that is missing is reported last.
-/

namespace CssBuild.Config.FromTree

open Json (Cause)

/-! ## Parts -/

/-- A tree as it is named in errors. -/
def treeName : Json → String
  | .array _ => "sequence"
  | .object _ => "map"
  | tree => Json.scalarName tree

/-- The error of a tree of another kind than the expected one. -/
def otherKind {α : Type} (expected : String) (tree : Json) : Except Cause α :=
  .error (.unexpectedKind (treeName tree) expected)

/-- A text. -/
def text : Json → Except Cause String
  | .string s => .ok s
  | tree => otherKind "a string" tree

/-- The values of some items. -/
def items {α : Type} (item : Json → Except Cause α) : List Json → Except Cause (List α)
  | [] => .ok []
  | tree :: rest => do
    let found ← item tree
    let more ← items item rest
    .ok (found :: more)

/-- A list. -/
def list {α : Type} (item : Json → Except Cause α) : Json → Except Cause (List α)
  | .array trees => items item trees
  | tree => otherKind "a sequence" tree

/-- A choice with a name. -/
def named {α : Type} (names : List String) (ofName? : String → Option α) (name : String) :
    Except Cause α :=
  match ofName? name with
  | some found => .ok found
  | none => .error (.unknownChoice name names)

/-- One of some names, or an object whose one key is such a name and whose value is absent. -/
def choice {α : Type} (names : List String) (ofName? : String → Option α) :
    Json → Except Cause α
  | .string name => named names ofName? name
  | .object [(name, tree)] => do
    let found ← named names ofName? name
    match tree with
    | .null => .ok found
    | _ => otherKind "unit" tree
  | .object _ => .error .notSingle
  | tree => otherKind "string or map" tree

/-- A mode. -/
def mode : Json → Except Cause Mode := choice Mode.names Mode.ofName?

/-- A dark mode. -/
def darkMode : Json → Except Cause DarkMode := choice DarkMode.names DarkMode.ofName?

/-- A pattern. -/
def pattern (tree : Json) : Except Cause Pattern := (text tree).map Pattern.mk

/-- The entries of a font table that come after some tokens. -/
def fontEntries (seen : List String) :
    List (String × Json) → Except Cause (List (String × FontStack))
  | [] => .ok []
  | (token, tree) :: rest => do
    let stack ← list text tree
    if token ∈ seen then .error (.repeatedToken token)
    else do
      let more ← fontEntries (token :: seen) rest
      .ok ((token, stack) :: more)

/-- A font table. -/
def fonts : Json → Except Cause FontTable
  | .object entries => (fontEntries [] entries).map .ofList
  | tree => otherKind "a map from font token to a list of family names" tree

/-- Entries that are kept as they are. -/
def overrides : Json → Except Cause (OrderedMap Json)
  | .object entries => .ok (.ofList entries)
  | tree => otherKind "a map" tree

/-- References to plugins. -/
def plugins : Json → Except Cause (List Plugin) := list .ok

/-! ## Records -/

/-- A field of a record. -/
structure Field (ρ : Type) where
  /-- Its key. -/
  name : String
  /-- Whether it cannot be left out. -/
  required : Bool
  /-- The record with the value of a tree as this field. -/
  put : ρ → Json → Except Cause ρ

/-- A field that can be read and set. -/
def Field.of {ρ α : Type} (name : String) (required : Bool) (read : Json → Except Cause α)
    (set : ρ → α → ρ) : Field ρ :=
  ⟨name, required, fun record tree => (read tree).map (set record)⟩

variable {ρ : Type}

/-- A record with the fields of an object. -/
def putEntries (fields : List (Field ρ)) :
    (record : ρ) → List (String × Json) → Except Cause ρ
  | record, [] => .ok record
  | record, (key, tree) :: rest =>
    match fields.find? fun field => field.name = key with
    | some field => do
      let record ← field.put record tree
      putEntries fields record rest
    | none => putEntries fields record rest

/-- A record with the fields of an array, from some number on, and the items after the last field.
`tooShort` is the cause of an array that ends before the field of some number. -/
def putItems (tooShort : Nat → Cause) :
    (i : Nat) → List (Field ρ) → (record : ρ) → List Json → Except Cause (ρ × List Json)
  | _, [], record, rest => .ok (record, rest)
  | i, field :: fields, record, tree :: rest => do
    let record ← field.put record tree
    putItems tooShort (i + 1) fields record rest
  | i, field :: fields, record, [] =>
    if field.required then .error (tooShort i)
    else putItems tooShort (i + 1) fields record []

/-- A record; the draft has the values of the fields that are left out. -/
def record (name : String) (fields : List (Field ρ)) (draft : ρ) : Json → Except Cause ρ
  | .object entries => do
    let found ← putEntries fields draft entries
    match fields.find? fun field => field.required && !Entries.has entries field.name with
    | some field => .error (.missingField field.name)
    | none => .ok found
  | .array trees => do
    let (found, rest) ← putItems (fun i => .tooShort i name fields.length) 0 fields draft trees
    if rest.isEmpty then .ok found else .error (.tooLong trees.length)
  | tree => otherKind ("struct " ++ name) tree

/-! ## Sections -/

/-- The fields of the content. -/
def contentFields : List (Field (List Pattern)) :=
  [.of "files" true (list pattern) fun _ patterns => patterns]

/-- The content. -/
def content : Json → Except Cause (List Pattern) := record "ContentConfig" contentFields []

/-- The fields of the theme. -/
def themeFields : List (Field (FontTable × OrderedMap Json)) :=
  [.of "fontFamily" false fonts fun theme found => (found, theme.2),
    .of "extend" false overrides fun theme found => (theme.1, found)]

/-- The theme: font tokens and overrides. -/
def theme : Json → Except Cause (FontTable × OrderedMap Json) :=
  record "ThemeConfig" themeFields (.empty, .empty)

/-- The fields of the variants. -/
def variantsFields : List (Field (OrderedMap Json)) :=
  [.of "extend" false overrides fun _ found => found]

/-- The variants: overrides. -/
def variants : Json → Except Cause (OrderedMap Json) :=
  record "VariantsConfig" variantsFields .empty

/-- The fields of a configuration. -/
def configFields : List (Field Config) :=
  [.of "mode" false mode fun config found => { config with mode := found },
    .of "content" true content fun config found => { config with patterns := found },
    .of "darkMode" false darkMode fun config found => { config with darkMode := found },
    .of "theme" false theme fun config found =>
      { config with fonts := found.1, themeExtend := found.2 },
    .of "variants" false variants fun config found => { config with variantsExtend := found },
    .of "plugins" false plugins fun config found => { config with plugins := found }]

/-- A configuration. -/
def config : Json → Except Cause Config :=
  record "BuildConfiguration" configFields (scanning [])

end CssBuild.Config.FromTree
