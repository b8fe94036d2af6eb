import CssBuild.Config.FromTree
import CssBuild.Document
import CssBuild.Json.Writer

/-!
# CssBuild.Config.Schema

What a document has to look like to be a configuration.

1. `Schema.checkTree` stops at the first defect: a root that is no object,
   then unknown keys of the root, then the parts in the order of the schema,
   each before what is in it. Where there is none it gathers warnings.
2. Unknown keys are defects or worth a warning, as the options say.
3. A font stack that does not end in a generic family is worth a warning.
4. `Schema.check` refuses a document with a repeated key, checks its tree and
   takes the configuration that the tree is the value of.
-/

namespace CssBuild

/-- What to do about keys that the schema does not define. -/
inductive UnknownKeys where
  /-- They are defects. -/
  | refuse
  /-- They are passed over with a warning. -/
  | warn
deriving DecidableEq

/-- How a document is checked. -/
structure LoadOptions where
  /-- What to do about unknown keys. -/
  unknownKeys : UnknownKeys := .refuse
  /-- Whether to warn about font stacks that do not end in a generic family. -/
  fontFallbacks : Bool := true
deriving DecidableEq

/-- Something that is in order, and what there is to warn about. -/
structure Checked (α : Type) where
  value : α
  warnings : List Warning

namespace Schema

/-! ## Keys -/

/-- The keys of the root. -/
def rootKeys : List String := ["mode", "content", "darkMode", "theme", "variants", "plugins"]

/-- The keys of the content. -/
def contentKeys : List String := ["files"]

/-- The keys of the theme. -/
def themeKeys : List String := ["fontFamily", "extend"]

/-- The keys of the variants. -/
def variantsKeys : List String := ["extend"]

/-- Goes through the keys of an object at a path that the schema does not define. -/
def unknownKeys (policy : UnknownKeys) (path : String) (permitted : List String) :
    List (String × Json) → Except ConfigError (List Warning)
  | [] => .ok []
  | (key, _) :: rest =>
    if key ∈ permitted then unknownKeys policy path permitted rest
    else match policy with
      | .refuse => .error (.unknownKey (KeyPath.child path key) permitted)
      | .warn => do
        let more ← unknownKeys policy path permitted rest
        .ok (.unknownKey (KeyPath.child path key) :: more)

/-! ## Kinds of values -/

/-- A path as it is named in errors. -/
def shownKey (key : String) : String := if key = "" then "(root)" else key

/-- A value of the wrong kind. -/
def wrongKind (key expected : String) (found : Json) : ConfigError :=
  .invalidType (shownKey key) expected found.kind

/-- The entries of an object. -/
def objectAt (key : String) (tree : Json) : Except ConfigError (List (String × Json)) :=
  match tree with
  | .object entries => .ok entries
  | _ => .error (wrongKind key "object" tree)

/-- The items of an array. -/
def arrayAt (key : String) (tree : Json) : Except ConfigError (List Json) :=
  match tree with
  | .array items => .ok items
  | _ => .error (wrongKind key "array" tree)

/-- A text. -/
def textAt (key : String) (tree : Json) : Except ConfigError String :=
  match tree with
  | .string s => .ok s
  | _ => .error (wrongKind key "string" tree)

/-! ## Parts -/

/-- What there is to warn about in something that is in order. -/
abbrev Check : Type := Except ConfigError (List Warning)

/-- Checks a part that may be left out. -/
def checkOptional (entries : List (String × Json)) (key : String) (check : Json → Check) : Check :=
  match Entries.find? entries key with
  | some tree => check tree
  | none => .ok []

/-- A part that has to be there; `path` is how an error names it. -/
def required (entries : List (String × Json)) (key path : String) : Except ConfigError Json :=
  match Entries.find? entries key with
  | some tree => .ok tree
  | none => .error (.missingKey path)

/-- Checks one of some names. -/
def checkName (key : String) (names : List String) (tree : Json) : Check :=
  match tree.text? with
  | some name =>
    if name ∈ names then .ok [] else .error (.invalidValue key tree.compact names)
  | none => .error (.invalidValue key tree.compact names)

/-- Checks entries whose meaning belongs to the build tool. -/
def checkOverrides (path : String) (tree : Json) : Check := do
  let _ ← objectAt path tree
  .ok []

/-! ## Content -/

/-- The path of an item. -/
def itemPath (path : String) (i : Nat) : String := KeyPath.child path (KeyPath.index i)

/-- Checks the patterns from some number on. -/
def checkPatterns (i : Nat) : List Json → Check
  | [] => .ok []
  | item :: rest => do
    let text ← textAt (itemPath "content.files" i) item
    match (Pattern.mk text).compile with
    | .error fault =>
      .error (.invalidGlob (itemPath "content.files" i) text
        (fault.message (Pattern.mk text).globText))
    | .ok _ => checkPatterns (i + 1) rest

/-- Checks the content of a root. -/
def checkContent (policy : UnknownKeys) (root : List (String × Json)) : Check := do
  let tree ← required root "content" "content"
  let content ← objectAt "content" tree
  let unknown ← unknownKeys policy "content" contentKeys content
  let tree ← required content "files" "content.files"
  let files ← arrayAt "content.files" tree
  if files.isEmpty then .error (.emptySequence "content.files")
  else do
    let _ ← checkPatterns 0 files
    .ok unknown

/-! ## Theme -/

/-- Checks the families of a stack from some number on. -/
def checkFamilies (path : String) (i : Nat) : List Json → Check
  | [] => .ok []
  | item :: rest => do
    let _ ← textAt (itemPath path i) item
    checkFamilies path (i + 1) rest

/-- What there is to warn about in a stack with a last item. -/
def fallbackWarnings (fontFallbacks : Bool) (token : String) (last : Json) : List Warning :=
  match last.text? with
  | some family =>
    if fontFallbacks ∧ family ∉ FontStack.genericFamilies then
      [.nonGenericFallback token family]
    else []
  | none => []

/-- Checks the font stack of a token. -/
def checkStack (fontFallbacks : Bool) (token : String) (tree : Json) : Check := do
  let path := KeyPath.child "theme.fontFamily" token
  let families ← arrayAt path tree
  match families.getLast? with
  | none => .error (.emptySequence path)
  | some last => do
    let _ ← checkFamilies path 0 families
    .ok (fallbackWarnings fontFallbacks token last)

/-- Checks the tokens of a font table. -/
def checkStacks (fontFallbacks : Bool) : List (String × Json) → Check
  | [] => .ok []
  | (token, tree) :: rest => do
    let found ← checkStack fontFallbacks token tree
    let more ← checkStacks fontFallbacks rest
    .ok (found ++ more)

/-- Checks a font table. -/
def checkFonts (fontFallbacks : Bool) (tree : Json) : Check := do
  let table ← objectAt "theme.fontFamily" tree
  checkStacks fontFallbacks table

/-- Checks the theme: font tokens and overrides. -/
def checkTheme (options : LoadOptions) (tree : Json) : Check := do
  let theme ← objectAt "theme" tree
  let unknown ← unknownKeys options.unknownKeys "theme" themeKeys theme
  let fonts ← checkOptional theme "fontFamily" (checkFonts options.fontFallbacks)
  let _ ← checkOptional theme "extend" (checkOverrides "theme.extend")
  .ok (unknown ++ fonts)

/-! ## Variants and plugins -/

/-- Checks the variants: overrides. -/
def checkVariants (policy : UnknownKeys) (tree : Json) : Check := do
  let variants ← objectAt "variants" tree
  let unknown ← unknownKeys policy "variants" variantsKeys variants
  let _ ← checkOptional variants "extend" (checkOverrides "variants.extend")
  .ok unknown

/-- Checks the references to plugins. -/
def checkPlugins (tree : Json) : Check := do
  let _ ← arrayAt "plugins" tree
  .ok []

/-! ## Documents -/

/-- Checks the tree of a document. -/
def checkTree (options : LoadOptions) (tree : Json) : Check := do
  let root ← objectAt "" tree
  let unknown ← unknownKeys options.unknownKeys "" rootKeys root
  let _ ← checkOptional root "mode" (checkName "mode" Mode.names)
  let content ← checkContent options.unknownKeys root
  let _ ← checkOptional root "darkMode" (checkName "darkMode" DarkMode.names)
  let theme ← checkOptional root "theme" (checkTheme options)
  let variants ← checkOptional root "variants" (checkVariants options.unknownKeys)
  let _ ← checkOptional root "plugins" checkPlugins
  .ok (unknown ++ content ++ theme ++ variants)

/-- What the value of a checked tree is expected to be. -/
def recordName : String := "build configuration"

/-- Reads a document as a configuration. -/
def check (options : LoadOptions) (document : Document) : Except ConfigError (Checked Config) :=
  match document.duplicates with
  | key :: _ => .error (.duplicateKey key)
  | [] => do
    let warnings ← checkTree options document.root
    match Config.FromTree.config document.root with
    | .ok config => .ok ⟨config, warnings⟩
    | .error cause => .error (.invalidType (shownKey "") recordName cause.message)

end Schema

end CssBuild
