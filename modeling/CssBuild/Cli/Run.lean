import CssBuild.Cli.Arguments
import CssBuild.Cli.Error
import CssBuild.Cli.Style
import CssBuild.Config.Stored
import CssBuild.Docs.Reference
import CssBuild.Text.Blank

/-!
# CssBuild.Cli.Run

What commands do.

1. A command reads the file system and yields the text to show. Only a
   conversion changes the file system.
2. Lines of warnings stand after the lines of the result and before its last
   line.
3. A program shows the text on its output, or the failure on its error
   output; text without anything visible is not shown.
-/

namespace CssBuild.Cli

/-- The options of loading a configuration. -/
def loadOptions (lenient : Bool) : LoadOptions where
  unknownKeys := if lenient then .warn else .refuse
  fontFallbacks := true

/-- The result of a configuration's operation as that of a command. -/
def asCommand {α : Type} (result : Except ConfigError α) : Except Error α :=
  result.mapError Error.config

/-- The configuration at a location. -/
def loadAt (fs : FileSystem) (lenient : Bool) (location? : Option String) :
    Except Error Stored := do
  let path ← asCommand (Config.locate fs (location?.map Path.mk))
  asCommand (Config.load fs path (loadOptions lenient))

/-- A number of something. -/
def count {α : Type} (items : List α) : String := ConfigError.decimal items.length

/-- Lines put together. -/
def joinLines (lines : List String) : String := "\n".intercalate lines

/-! ## Commands -/

/-- The names of font tokens after their number. -/
def tokenNames (tokens : List String) : String :=
  if tokens.isEmpty then "" else " (" ++ ", ".intercalate tokens ++ ")"

/-- The summary of a configuration. -/
def summaryLines (stored : Stored) : List String :=
  let config := stored.config
  let tokens := config.fonts.toList.map Prod.fst
  [header stored.path.text ++ " " ++ remark ("(" ++ stored.format.name ++ ")"),
    "  mode: " ++ config.mode.name,
    "  darkMode: " ++ config.darkMode.name,
    "  content.files: " ++ count config.patterns ++ " pattern(s)",
    "  theme.fontFamily: " ++ count tokens ++ " token(s)" ++ tokenNames tokens,
    "  theme.extend: " ++ count config.themeExtend.toList ++ " entr(ies)",
    "  variants.extend: " ++ count config.variantsExtend.toList ++ " entr(ies)",
    "  plugins: " ++ count config.plugins]

/-- Checks a configuration and sums it up. -/
def check (fs : FileSystem) (lenient : Bool) (location? : Option String) :
    Except Error String := do
  let stored ← loadAt fs lenient location?
  .ok (joinLines (summaryLines stored ++ stored.warnings.map warningLine ++ ["ok"]))

/-- How many files some patterns select. -/
def selection (resolution : Resolution) : String :=
  count resolution.files ++ " file(s) matched by " ++ count resolution.counts ++ " pattern(s)"

/-- Lists the files that a configuration selects. -/
def files (fs : FileSystem) (lenient : Bool) (location? : Option String) :
    Except Error String := do
  let stored ← loadAt fs lenient location?
  let resolution ← asCommand (stored.resolve fs)
  .ok (joinLines (resolution.files.map Path.text ++
    (stored.warnings ++ resolution.warnings).map warningLine ++ [remark (selection resolution)]))

/-- Shows the value at a dotted key. -/
def get (fs : FileSystem) (lenient : Bool) (key : String) (location? : Option String) :
    Except Error String := do
  let stored ← loadAt fs lenient location?
  let value ← (stored.config.toTree.lookup key).mapError Error.lookup
  .ok (key ++ ": " ++ valueText value)

/-- What is to be written, with the line that says so. -/
def conversion (fs : FileSystem) (lenient : Bool) (input output : Path) :
    Except Error (Stored × String) :=
  if input.same output then .error .sameFile
  else do
    let format ← asCommand (Format.ofPath output)
    let stored ← asCommand (Config.load fs input (loadOptions lenient))
    .ok (stored, "wrote " ++ output.text ++ " (" ++ stored.format.name ++ " -> " ++
      format.name ++ ")")

/-- Writes a configuration in the format of another file. -/
def convert (fs : FileSystem) (lenient : Bool) (input output : Path) :
    FileSystem × Except Error String :=
  match conversion fs lenient input output with
  | .error e => (fs, .error e)
  | .ok (stored, line) =>
    match Config.save fs stored.config output with
    | (changed, .error e) => (changed, .error (.config e))
    | (changed, .ok _) => (changed, .ok (joinLines (stored.warnings.map warningLine ++ [line])))

/-- Shows the schema, or the reference of it. -/
def schema (reference : Bool) : String :=
  if reference then Docs.reference else Docs.configSchema.pretty

/-- Carries out a command line. -/
def run (fs : FileSystem) (invocation : Invocation) : FileSystem × Except Error String :=
  match invocation.command with
  | .check location? => (fs, check fs invocation.lenient location?)
  | .files location? => (fs, files fs invocation.lenient location?)
  | .get key location? => (fs, get fs invocation.lenient key location?)
  | .convert input output => convert fs invocation.lenient ⟨input⟩ ⟨output⟩
  | .schema reference => (fs, .ok (schema reference))

/-! ## Programs -/

/-- What a program leaves behind. -/
structure Outcome where
  /-- The text of its output. -/
  output : String
  /-- The text of its error output. -/
  errors : String
  /-- Its exit code. -/
  code : Nat
deriving DecidableEq

/-- What a program leaves behind after a command. -/
def outcome : Except Error String → Outcome
  | .ok text => ⟨if (Text.trim text.toList).isEmpty then "" else text ++ "\n", "", 0⟩
  | .error e => ⟨"", failure e.message ++ "\n", 1⟩

end CssBuild.Cli
