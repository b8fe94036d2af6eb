import CssBuild.Json.Pointer
import CssBuild.Json.Writer

/-!
# CssBuild.Docs.Property

What a schema says about the properties of an object, as a table.

1. A property has a type, which its schema names or refers to or gives as
   alternatives, a description, a default, and may be required.
2. A table has one row a property, in the order of the schema; a schema
   without properties has no table.
-/

namespace CssBuild.Docs

/-- What a schema says about a property. -/
structure Property where
  /-- The key. -/
  name : String
  /-- The name of its type. -/
  type : String
  /-- What it is for. -/
  description : String
  /-- Its value where it is left out. -/
  default : String
  /-- Whether it has to be there. -/
  required : Bool
deriving DecidableEq

/-! ## Types -/

/-- Alternatives side by side. -/
def alternatives (names : List String) : String := " | ".intercalate names

/-- The last part of a reference. -/
def referenceName (reference : String) : String :=
  String.ofList (reference.toList.reverse.takeWhile (· != '/')).reverse

/-- The name that a schema gives its type itself. -/
def ownType? (schema : Json) : Option String :=
  match schema.field? "type" with
  | some (.string name) => some name
  | some (.array names) => some (alternatives (names.filterMap Json.text?))
  | some _ => some "unknown"
  | none => ((schema.field? "$ref").bind Json.text?).map referenceName

/-- The value that an alternative is, or those it is one of. -/
def fixedValue? (schema : Json) : Option Json :=
  (schema.field? "const").or (schema.field? "enum")

mutual

/-- The name of the type of a schema. -/
def typeName : Json → String
  | .object entries =>
    match ownType? (.object entries) with
    | some name => name
    | none =>
      match (variantsOf "oneOf" entries).or (variantsOf "anyOf" entries) with
      | some (some names) => alternatives names
      | _ => "any"
  | _ => "any"

/-- The names of the alternatives at a key, if the key is there and they are a list. -/
def variantsOf (key : String) : List (String × Json) → Option (Option (List String))
  | [] => none
  | (k, .array items) :: rest =>
    if k = key then some (some (variantNames items)) else variantsOf key rest
  | (k, _) :: rest => if k = key then some none else variantsOf key rest

/-- The names of alternatives: their fixed value or their type. -/
def variantNames : List Json → List String
  | [] => []
  | item :: rest =>
    (match fixedValue? item with
      | some found => found.compact
      | none => typeName item) :: variantNames rest

end

/-! ## Properties -/

/-- A text on one line. -/
def oneLine (s : String) : String := s.map fun c => if c = '\n' then ' ' else c

/-- What a property is for. -/
def descriptionOf (schema : Json) : String :=
  match (schema.field? "description").bind Json.text? with
  | some text => oneLine text
  | none => "No description provided"

/-- The value of a property that is left out. -/
def defaultOf (schema : Json) : String :=
  match schema.field? "default" with
  | some (.string s) => "\"" ++ s ++ "\""
  | some found => found.compact
  | none => "-"

/-- The names that a schema lists as required. -/
def requiredNames (schema : Json) : List String :=
  (((schema.field? "required").bind Json.items?).getD []).filterMap Json.text?

/-- The properties that a schema defines, in order. -/
def properties (schema : Json) : List Property :=
  (((schema.field? "properties").bind Json.entries?).getD []).map fun entry => {
    name := entry.1
    type := typeName entry.2
    description := descriptionOf entry.2
    default := defaultOf entry.2
    required := entry.1 ∈ requiredNames schema }

/-! ## Tables -/

/-- A text as code. -/
def code (s : String) : String := "\x60" ++ s ++ "\x60"

/-- The lines above the rows of a table. -/
def tableHead : String :=
  "| Property | Type | Required | Description | Default |\n" ++
    "|----------|------|----------|-------------|---------|"

/-- The row of a property. -/
def tableRow (p : Property) : String :=
  "| " ++ code p.name ++ " | " ++ code p.type ++ " | " ++ (if p.required then "yes" else "no") ++
    " | " ++ p.description ++ " | " ++ code p.default ++ " |"

/-- A titled table of the properties at a path. -/
def table (title path : String) (properties : List Property) : String :=
  if properties.isEmpty then ""
  else
    "## " ++ title ++ "\n**Config path:** " ++ code path ++ "\n\n" ++ tableHead ++ "\n" ++
      "\n".intercalate (properties.map tableRow) ++ "\n"

end CssBuild.Docs
