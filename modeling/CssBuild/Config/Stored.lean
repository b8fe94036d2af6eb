import CssBuild.Config.Format
import CssBuild.Content.Resolution

/-!
# CssBuild.Config.Stored

Configurations in files.

1. The extension of a file tells the format in which it is read or written.
2. Content patterns are relative to the directory of the file.
3. A directory has a configuration if it has a file with one of five
   conventional names; the first of them counts.
4. A configuration is written before the file system is touched, so only the
   file system's own refusals can leave it changed.
-/

namespace CssBuild

/-- A configuration with the file that it was read from. -/
structure Stored where
  /-- The configuration. -/
  config : Config
  /-- The file. -/
  path : Path
  /-- The format of the file. -/
  format : Format
  /-- What there is to warn about. -/
  warnings : List Warning

namespace Stored

/-- The directory that content patterns are relative to. -/
def base (stored : Stored) : Path :=
  match stored.path.parent? with
  | some parent => if parent.text = "" then ⟨"."⟩ else parent
  | none => ⟨"."⟩

/-- The files that the content patterns select. -/
def resolve (fs : FileSystem) (stored : Stored) : Except ConfigError Resolution :=
  resolveContent fs stored.base stored.config.patterns

end Stored

/-- A refusal of the file system as an error. -/
def FileError.onPath (reason : FileError) (path : Path) : ConfigError := .io path reason.message

namespace Config

/-- Reads the configuration of a file. -/
def load (fs : FileSystem) (path : Path) (options : LoadOptions) : Except ConfigError Stored := do
  let format ← Format.ofPath path
  let text ← (fs.readText path).mapError fun reason => reason.onPath path
  let checked ← readText format text (some path) options
  .ok ⟨checked.value, path, format, checked.warnings⟩

/-- The directory above a path, if it has a name. -/
def directoryAbove? (path : Path) : Option Path :=
  path.parent?.filter fun parent => parent.text ≠ ""

/-- The file system with the directories above a path. -/
def makeAbove (fs : FileSystem) (path : Path) : FileSystem × Option ConfigError :=
  match directoryAbove? path with
  | none => (fs, none)
  | some parent =>
    let (made, reason?) := fs.makeAll parent
    (made, reason?.map fun reason => reason.onPath parent)

/-- Writes a configuration as a file, with the directories above it. -/
def save (fs : FileSystem) (config : Config) (path : Path) : FileSystem × Except ConfigError Unit :=
  match (do let format ← Format.ofPath path; format.write config : Except ConfigError String) with
  | .error e => (fs, .error e)
  | .ok text =>
    match makeAbove fs path with
    | (made, some e) => (made, .error e)
    | (made, none) =>
      match made.writeText path text with
      | .ok written => (written, .ok ())
      | .error reason => (made, .error (reason.onPath path))

/-! ## Finding a configuration -/

/-- The names of files that hold configurations, the first one counting first. -/
def fileNames : List String :=
  ["tailwind.config.js", "tailwind.config.cjs", "tailwind.config.mjs", "tailwind.config.json",
    "tailwind.config.toml"]

/-- The configuration file of a directory. -/
def discover (fs : FileSystem) (directory : Path) : Except ConfigError Path :=
  match (fileNames.map fun name => directory.join ⟨name⟩).find? fs.isFile with
  | some path => .ok path
  | none => .error (.notFound directory)

/-- The path of the working directory. -/
def workingDirectory (fs : FileSystem) : Path := ⟨"/" ++ "/".intercalate fs.workdir⟩

/-- The configuration file at a location: the file itself, or that of a directory, which is the
working directory where none is given. -/
def locate (fs : FileSystem) (location? : Option Path) : Except ConfigError Path :=
  match location? with
  | none => discover fs (workingDirectory fs)
  | some path => if fs.isDirectory path then discover fs path else .ok path

end Config

end CssBuild
