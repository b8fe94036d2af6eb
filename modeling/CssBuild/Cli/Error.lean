import CssBuild.Error
import CssBuild.KeyPath

/-!
# CssBuild.Cli.Error

Why a command fails once its arguments are understood.

1. Converting a file onto itself is refused before anything is read.
2. A dotted key may lead nowhere.
3. Everything else is the failure of loading, checking or writing a
   configuration.
-/

namespace CssBuild.Cli

/-- Why a command fails. -/
inductive Error where
  /-- A file is to be converted onto itself. -/
  | sameFile
  /-- A dotted key leads nowhere. -/
  | lookup (reason : Json.LookupError)
  /-- A configuration cannot be loaded or written. -/
  | config (reason : ConfigError)
deriving DecidableEq

/-- The wording of a failure. -/
def Error.message : Error → String
  | sameFile => "Invalid arguments: input and output must be different files"
  | lookup reason => "Invalid key path: " ++ reason.message
  | config reason => "Configuration error: " ++ reason.message

end CssBuild.Cli
