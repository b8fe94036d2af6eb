import CssBuild.Json.Basic
import CssBuild.Text.Blank
import CssBuild.Text.Split

/-!
# CssBuild.Config.Plugin

References to plugins of the build tool.

1. A reference is any value; its meaning belongs to the build tool.
2. A text names a plugin, either itself or as the quoted argument of a call
   of `require`.
-/

namespace CssBuild

/-- A reference to a plugin. -/
abbrev Plugin := Json

namespace Plugin

/-- Whether a character is a quote. -/
def isQuote (c : Char) : Bool := c == '\'' || c == '"'

/-- What stands between the quotes of a quoted text. -/
def unquoted? (s : List Char) : Option (List Char) :=
  match s with
  | [] => none
  | c :: rest =>
    if isQuote c then
      match rest.getLast? with
      | some last => if isQuote last then some rest.dropLast else none
      | none => none
    else none

/-- How a call of `require` starts. -/
def callStart : List Char := ['r', 'e', 'q', 'u', 'i', 'r', 'e', '(']

/-- The plugin that a text names: the module that a call of `require` asks for, or the text. -/
def nameOfText? (text : List Char) : Option (List Char) :=
  match Text.dropPrefix? callStart text with
  | none => some text
  | some rest => unquoted? (Text.trim (rest.takeWhile (· != ')')))

/-- The plugin that a reference names, if it is a text that names one. -/
def name? (plugin : Plugin) : Option String :=
  plugin.text?.bind fun text => (nameOfText? text.toList).map String.ofList

end Plugin

end CssBuild
