import CssBuild.Json.Basic

/-!
# CssBuild.Docs.Schema

The schema of configurations as a JSON Schema document.

1. Each section is defined once, under `$defs`, and referred to from the
   places that hold it.
-/

namespace CssBuild.Docs

/-- A pair of a key and a text. -/
def textPair (key text : String) : String × Json := (key, .string text)

/-- The description of a schema. -/
def describe (text : String) : String × Json := textPair "description" text

/-- The type of a schema. -/
def ofType (name : String) : String × Json := textPair "type" name

/-- A reference to a definition. -/
def refer (name : String) : String × Json := textPair "$ref" ("#/$defs/" ++ name)

/-- The default of a schema. -/
def defaultsTo (value : Json) : String × Json := ("default", value)

/-- The schema of the items of an array. -/
def itemsOf (entries : List (String × Json)) : String × Json := ("items", .object entries)

/-- The properties of an object. -/
def propertiesOf (entries : List (String × Json)) : String × Json := ("properties", .object entries)

/-- An alternative that is one text. -/
def fixedText (value description : String) : Json :=
  .object [ofType "string", textPair "const" value, describe description]

/-- The empty object. -/
def noEntries : Json := .object []

/-- The properties of the root. -/
def rootProperties : List (String × Json) :=
  [("mode", .object
      [refer "Mode", describe "Utility generation strategy.", defaultsTo (.string "jit")]),
    ("content", .object
      [refer "ContentConfig", describe "Source files scanned for class usage."]),
    ("darkMode", .object
      [refer "DarkMode", describe "How dark-mode variants are activated.",
        defaultsTo (.string "media")]),
    ("theme", .object
      [refer "ThemeConfig", describe "Font-family tokens and theme overrides.",
        defaultsTo (.object [("fontFamily", noEntries), ("extend", noEntries)])]),
    ("variants", .object
      [refer "VariantsConfig", describe "Variant overrides.",
        defaultsTo (.single "extend" noEntries)]),
    ("plugins", .object
      [ofType "array", itemsOf [refer "PluginRef"],
        describe "Plugin references, passed through to the build tool.",
        defaultsTo (.array [])])]

/-- The definition of modes. -/
def modeDefinition : Json :=
  .object
    [("oneOf", .array
      [fixedText "jit" "Generate utilities on demand from scanned class usage."]),
      describe "Utility generation strategy."]

/-- The definition of the content. -/
def contentDefinition : Json :=
  .object
    [ofType "object",
      propertiesOf
        [("files", .object
          [ofType "array", itemsOf [refer "GlobPattern"],
            describe
              ("Glob patterns relative to the configuration file's directory.\n" ++
                "Patterns prefixed with \x60!\x60 exclude matching files.")])],
      ("required", .strings ["files"]),
      describe "Source files scanned for utility-class usage."]

/-- The definition of patterns. -/
def patternDefinition : Json :=
  .object [ofType "string", describe "A filesystem glob as written in the configuration."]

/-- The definition of dark modes. -/
def darkModeDefinition : Json :=
  .object
    [("oneOf", .array
      [fixedText "media" "Follow the user's color-scheme preference (default).",
        fixedText "class" "Toggle manually through a class on a root element."]),
      describe
        ("Strategy for activating dark-mode variants.\n\n" ++
          "\x60Media\x60 follows the operating system or browser preference through the\n" ++
          "\x60prefers-color-scheme\x60 media query. " ++
          "\x60Class\x60 activates the variants when a\n" ++
          "\x60dark\x60 class is present on a root element.")]

/-- The definition of the theme. -/
def themeDefinition : Json :=
  .object
    [ofType "object",
      propertiesOf
        [("fontFamily", .object
          [refer "FontFamilies",
            describe
              ("Custom font-family tokens, " ++
                "each an ordered stack ending in a generic family."),
            defaultsTo noEntries]),
          ("extend", .object
          [refer "Extensions",
            describe "Additive theme overrides, interpreted by the build tool.",
            defaultsTo noEntries])],
      describe "Design tokens the build tool generates utilities from."]

/-- The definition of font tables. -/
def fontsDefinition : Json :=
  .object
    [ofType "object",
      describe "Map from font token to an ordered, non-empty list of family names.",
      ("additionalProperties", .object [ofType "array", itemsOf [ofType "string"]])]

/-- The definition of overrides. -/
def overridesDefinition : Json :=
  .object
    [ofType "object",
      ("additionalProperties", .bool true),
      describe
        ("Open mapping whose entries are defined by the build tool, not by this crate.\n\n" ++
          "Entries are kept verbatim and in declaration order.")]

/-- The definition of variants. -/
def variantsDefinition : Json :=
  .object
    [ofType "object",
      propertiesOf
        [("extend", .object
          [refer "Extensions",
            describe "Additive variant overrides, interpreted by the build tool.",
            defaultsTo noEntries])],
      describe "Variant configuration."]

/-- The definition of plugins. -/
def pluginDefinition : Json :=
  .object
    [describe "Reference to a build-tool plugin; its shape belongs to the plugin contract."]

/-- The schema of configurations. -/
def configSchema : Json :=
  .object
    [ofType "object",
      propertiesOf rootProperties,
      ("required", .strings ["content"]),
      describe
        ("Main configuration structure.\n\n" ++
          "Mirrors the configuration file field for field. Only \x60content\x60 is\n" ++
          "required; every other section has a default."),
      textPair "title" "BuildConfiguration",
      textPair "$schema" "https://json-schema.org/draft/2020-12/schema",
      ("$defs", .object
        [("Mode", modeDefinition),
          ("ContentConfig", contentDefinition),
          ("GlobPattern", patternDefinition),
          ("DarkMode", darkModeDefinition),
          ("ThemeConfig", themeDefinition),
          ("FontFamilies", fontsDefinition),
          ("Extensions", overridesDefinition),
          ("VariantsConfig", variantsDefinition),
          ("PluginRef", pluginDefinition)])]

end CssBuild.Docs
