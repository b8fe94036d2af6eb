import CssBuild.Docs.Property
import CssBuild.Docs.Schema

/-!
# CssBuild.Docs.Reference

The reference of the configuration schema.

1. It has a table of the properties of the root, then one for each property
   whose schema, or the one it refers to, has properties of its own.
-/

namespace CssBuild.Docs

/-- A name that starts with a capital letter. -/
def titleOf (name : String) : String :=
  match name.toList with
  | [] => ""
  | c :: rest => String.ofList (c.toUpper :: rest)

/-- The table of a section, after an empty line, if it has properties. -/
def sectionText (schema : Json) (entry : String × Json) : String :=
  let found := properties (Json.resolve schema entry.2)
  if found.isEmpty then "" else "\n" ++ table (titleOf entry.1) entry.1 found

/-- The reference of a schema. -/
def referenceOf (schema : Json) : String :=
  let sections := ((schema.field? "properties").bind Json.entries?).getD []
  "# Build Configuration Reference\n\n" ++
    table "Top-level Keys" "(root)" (properties schema) ++
    String.join (sections.map (sectionText schema))

/-- The reference of configurations. -/
def reference : String := referenceOf configSchema

end CssBuild.Docs
