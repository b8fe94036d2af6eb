import CssBuild.Config.Basic
import CssBuild.Json.Typed

/-!
# CssBuild.Config.Typed

Configurations and their parts read from JSON text without a document.

1. Each part has a typed reader that gives its canonical tree. No schema is
   checked beyond the kinds of values: patterns need not be globs, sequences
   may be empty, and keys that are not defined are passed over.
2. A font table refuses a token that it has already; any other mapping takes
   the last value of a repeated key.
-/

namespace CssBuild.Config.Typed

open Json

/-- Another reader's result as a tree. -/
def asTree {α : Type} (tree : α → Json) (reader : Typed α) : Typed Json := fun room s =>
  (reader room s).map fun found => (tree found.1, found.2)

/-- A mode. -/
def mode : Typed Json := asTree (fun m => .string m.name) (choice Mode.names Mode.ofName?)

/-- A dark mode. -/
def darkMode : Typed Json :=
  asTree (fun m => .string m.name) (choice DarkMode.names DarkMode.ofName?)

/-- A pattern. -/
def pattern : Typed Json := asTree .string text

/-- The families of a font stack. -/
def families : Typed FontStack := list text

/-- A font stack. -/
def fontStack : Typed Json := asTree .strings families

/-- The cause against a font token that is there already. -/
def repeatedToken? (seen : List String) (token : String) : Option Cause :=
  if token ∈ seen then some (.repeatedToken token) else none

/-- The entries of a font table. -/
def fontEntries : Typed (List (String × FontStack)) :=
  mapping "a map from font token to a list of family names" families repeatedToken?

/-- Reads a text that is a font table and nothing else. -/
def readFonts (text : String) : Except Fault FontTable :=
  (readTyped fontEntries text.toList).map .ofList

/-- A font table. -/
def fonts : Typed Json := asTree (fun entries => fontsTree (.ofList entries)) fontEntries

/-- The entries of overrides. -/
def overrideEntries : Typed (List (String × Json)) :=
  mapping "a map" anything fun _ _ => none

/-- Overrides. -/
def overrides : Typed Json :=
  asTree (fun entries => .object (OrderedMap.ofList entries).toList) overrideEntries

/-- The content. -/
def content : Typed Json :=
  record "ContentConfig" [⟨"files", none, asTree .array (list pattern)⟩]

/-- The tree of a theme without tokens and overrides. -/
def emptyTheme : Json := .object [("fontFamily", .object []), ("extend", .object [])]

/-- The theme. -/
def theme : Typed Json :=
  record "ThemeConfig"
    [⟨"fontFamily", some (.object []), fonts⟩, ⟨"extend", some (.object []), overrides⟩]

/-- The tree of variants without overrides. -/
def emptyVariants : Json := .single "extend" (.object [])

/-- The variants. -/
def variants : Typed Json := record "VariantsConfig" [⟨"extend", some (.object []), overrides⟩]

/-- References to plugins. -/
def plugins : Typed Json := asTree .array (list anything)

/-- A configuration. -/
def config : Typed Json :=
  record "BuildConfiguration"
    [⟨"mode", some (.string "jit"), mode⟩,
      ⟨"content", none, content⟩,
      ⟨"darkMode", some (.string "media"), darkMode⟩,
      ⟨"theme", some emptyTheme, theme⟩,
      ⟨"variants", some emptyVariants, variants⟩,
      ⟨"plugins", some (.array []), plugins⟩]

end CssBuild.Config.Typed
