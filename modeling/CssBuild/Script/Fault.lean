import CssBuild.Text.Position

/-!
# CssBuild.Script.Fault

Why a configuration module could not be read, and where.

1. A text that is no module is described by the first token that does not fit,
   or by the token that is missing.
2. An expression that needs evaluation is described by what it is.
3. Columns count bytes.
-/

namespace CssBuild.Script

/-- A description of what is wrong, and the text from the place on. -/
structure Fault where
  /-- What is wrong. -/
  description : String
  /-- The text from the place on. -/
  rest : List Char
deriving DecidableEq

/-- What a reader found, and what is then unread. -/
abbrev Found (α : Type) : Type := α × List Char

/-- A text as part of a description. -/
def inTicks (text : String) : String := "\x60" ++ text ++ "\x60"

/-- Where a fault is in a text. -/
def Fault.place (fault : Fault) (text : List Char) : Position :=
  Position.ofBytes (Position.before text fault.rest)

end CssBuild.Script
