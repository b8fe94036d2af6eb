import CssBuild.Error
import CssBuild.Json.Writer

/-!
# CssBuild.Cli.Style

How the output of commands looks on a terminal.

1. A style is a sequence of escape codes before a text; the code that ends
   every style stands after it.
2. Values are written as compact JSON, a text between quotes as it is.
-/

namespace CssBuild.Cli

/-- The code that ends every style. -/
def reset : String := "\x1b[0m"

/-- The code for bold text. -/
def bold : String := "\x1b[1m"

/-- The code for dim text. -/
def dim : String := "\x1b[2m"

/-- The code for red text. -/
def red : String := "\x1b[31m"

/-- The code for yellow text. -/
def yellow : String := "\x1b[33m"

/-- The code for cyan text. -/
def cyan : String := "\x1b[36m"

/-- The header of some output. -/
def header (text : String) : String := bold ++ cyan ++ text ++ reset

/-- Something less important. -/
def remark (text : String) : String := dim ++ text ++ reset

/-- An error. -/
def failure (text : String) : String := bold ++ red ++ text ++ reset

/-- The line of a warning. -/
def warningLine (warning : Warning) : String :=
  yellow ++ "warning:" ++ reset ++ " " ++ warning.message

/-- A value. -/
def valueText : Json → String
  | .string s => "\"" ++ s ++ "\""
  | tree => tree.compact

end CssBuild.Cli
