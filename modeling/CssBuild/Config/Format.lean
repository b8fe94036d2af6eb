import CssBuild.Config.Schema
import CssBuild.Toml.Writer

/-!
# CssBuild.Config.Format

The formats in which configurations are written.

1. The extension of a file name tells the format, in either case of letters.
2. A configuration is read by reading its document and checking that, and
   written by writing its tree.
-/

namespace CssBuild

/-- A format of configurations. -/
inductive Format where
  /-- A module that exports a literal. -/
  | script
  /-- A JSON document. -/
  | json
  /-- A TOML document. -/
  | toml
deriving DecidableEq

namespace Format

/-- The name of a format. -/
def name : Format → String
  | script => "JavaScript"
  | json => "JSON"
  | toml => "TOML"

/-- The format of files with an extension. -/
def ofExtension? (extension : List Char) : Option Format :=
  let found := String.ofList (extension.map Char.toLower)
  if found = "js" ∨ found = "cjs" ∨ found = "mjs" then some script
  else if found = "json" then some json
  else if found = "toml" then some toml
  else none

/-- The format of a file. -/
def ofPath (path : Path) : Except ConfigError Format :=
  match path.extension?.bind ofExtension? with
  | some format => .ok format
  | none => .error (.unsupportedFormat path)

/-- Reads a text as a document; the source names it in errors. -/
def read (format : Format) (text : String) (source? : Option Path) : Except ConfigError Document :=
  match format with
  | script => Document.ofScript text source?
  | json => Document.ofJson text source?
  | toml => Document.ofToml text source?

/-- Writes a tree. -/
def writeTree (format : Format) (tree : Json) : Except ConfigError String :=
  match format with
  | script => .ok (Script.render tree)
  | json => .ok (tree.pretty ++ "\n")
  | toml => (Toml.write tree).mapError fun reason => .serialize format.name reason.message

/-- Writes a configuration. -/
def write (format : Format) (config : Config) : Except ConfigError String :=
  format.writeTree config.toTree

end Format

namespace Config

/-- Reads a configuration from a text. -/
def readText (format : Format) (text : String) (source? : Option Path) (options : LoadOptions) :
    Except ConfigError (Checked Config) := do
  let document ← format.read text source?
  Schema.check options document

end Config

end CssBuild
