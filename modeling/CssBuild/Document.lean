import CssBuild.Error
import CssBuild.Json.Reader
import CssBuild.KeyPath
import CssBuild.Script.Value
import CssBuild.Toml.Reader

/-!
# CssBuild.Document

A configuration that has been read and not yet checked.

1. What a reader finds is a tree with every key of the text; the document
   keeps the merged tree and the paths of the repeated keys beside it.
2. `Document.ofJson` reads a JSON text, `Document.ofScript` a module and
   `Document.ofToml` a TOML text, in which a repeated key is an error already.
-/

namespace CssBuild

/-- A tree without repeated keys, and the paths of those that were repeated. -/
structure Document where
  /-- The tree. -/
  root : Json
  /-- The paths of the keys that their mapping had already. -/
  duplicates : List String

namespace Document

/-- The document of a tree as it was read. -/
def ofTree (read : Json) : Document := ⟨read.merged, read.repeated ""⟩

/-- Reads a JSON text. -/
def ofJson (text : String) (source? : Option Path) : Except ConfigError Document :=
  match Json.readChars text.toList with
  | .ok read => .ok (ofTree read)
  | .error fault =>
    .error (.atPlace source? (fault.place text.toList) (fault.message text.toList))

/-- Reads a module. -/
def ofScript (text : String) (source? : Option Path) : Except ConfigError Document :=
  match Script.readTree text.toList with
  | .ok read => .ok (ofTree read)
  | .error fault => .error (.atPlace source? (fault.place text.toList) fault.description)

/-- Reads a TOML text. -/
def ofToml (text : String) (source? : Option Path) : Except ConfigError Document :=
  match Toml.readTree text.toList with
  | .ok read => .ok (ofTree read)
  | .error fault => .error (.atPlace source? (fault.place text.toList) fault.message)

end Document

end CssBuild
