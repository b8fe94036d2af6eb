import CssBuild.Config.Fonts
import CssBuild.Config.Modes
import CssBuild.Config.Pattern
import CssBuild.Config.Plugin

/-!
# CssBuild.Config.Basic

The build configuration as a record.

1. Only the content patterns have to be given; every other part has a default.
2. Overrides of the theme and the variants, and plugins, are values whose
   meaning belongs to the build tool.
3. Two configurations are the same if they have the same parts; the order of
   font tokens counts, the order of entries of overrides does not.
-/

namespace CssBuild

/-- A build configuration. -/
structure Config where
  /-- When utilities are generated. -/
  mode : Mode
  /-- Which files are scanned. -/
  patterns : List Pattern
  /-- What turns dark variants on. -/
  darkMode : DarkMode
  /-- The font tokens of the theme. -/
  fonts : FontTable
  /-- Overrides of the theme. -/
  themeExtend : OrderedMap Json
  /-- Overrides of the variants. -/
  variantsExtend : OrderedMap Json
  /-- References to plugins. -/
  plugins : List Plugin

namespace Config

/-- The configuration that scans the files of some patterns, with defaults for the rest. -/
def scanning (patterns : List Pattern) : Config where
  mode := .onDemand
  patterns := patterns
  darkMode := .media
  fonts := .empty
  themeExtend := .empty
  variantsExtend := .empty
  plugins := []

/-- The configuration of the reference. -/
def reference : Config :=
  { scanning [⟨"src/**/*.rs"⟩, ⟨"index.html"⟩] with
    fonts := .ofList [
      ("alfa-slab", ["Alfa Slab One", "sans-serif"]),
      ("fira-sans", ["Fira Sans", "sans-serif"]),
      ("work-sans", ["Work Sans", "sans-serif"])] }

/-- The tree of a font table. -/
def fontsTree (fonts : FontTable) : Json :=
  .object (fonts.toList.map fun entry => (entry.1, .strings entry.2))

/-- The tree of a configuration: every part, in the order of the schema. -/
def toTree (config : Config) : Json :=
  .object [
    ("mode", .string config.mode.name),
    ("content", .single "files" (.strings (config.patterns.map Pattern.text))),
    ("darkMode", .string config.darkMode.name),
    ("theme", .object [
      ("fontFamily", fontsTree config.fonts),
      ("extend", .object config.themeExtend.toList)]),
    ("variants", .single "extend" (.object config.variantsExtend.toList)),
    ("plugins", .array config.plugins)]

/-- Equality of configurations. -/
def same (a b : Config) : Bool :=
  a.mode == b.mode && a.patterns == b.patterns && a.darkMode == b.darkMode &&
    FontTable.same a.fonts b.fonts &&
    Json.same (.object a.themeExtend.toList) (.object b.themeExtend.toList) &&
    Json.same (.object a.variantsExtend.toList) (.object b.variantsExtend.toList) &&
    Json.sameItems a.plugins b.plugins

end Config

end CssBuild
