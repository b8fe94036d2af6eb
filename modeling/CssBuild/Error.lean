import CssBuild.Files.Path
import CssBuild.Text.Position

/-!
# CssBuild.Error

What can be wrong with a configuration, and what is worth a warning.

1. Load errors: a file that cannot be read, a text that is not in its format,
   a file name without a known format, a directory without a configuration.
2. Schema errors: a document that describes no configuration. Each names the
   dotted key of the defect.
3. A configuration that a format cannot express.
4. Warnings never stop anything.
-/

namespace CssBuild

/-- Why loading, checking or writing a configuration failed. -/
inductive ConfigError where
  /-- The file system refused. -/
  | io (path : Path) (details : String)
  /-- The text is not in its format. -/
  | parse (source : String) (place : Position) (details : String)
  /-- The file name has no known extension. -/
  | unsupportedFormat (path : Path)
  /-- The directory has none of the conventional files. -/
  | notFound (directory : Path)
  /-- A required key is absent. -/
  | missingKey (key : String)
  /-- A value outside its domain. -/
  | invalidValue (key actual : String) (expected : List String)
  /-- A value of the wrong kind. -/
  | invalidType (key expected actual : String)
  /-- A sequence without elements that needs one. -/
  | emptySequence (key : String)
  /-- A key that its mapping has more than once. -/
  | duplicateKey (key : String)
  /-- A key that the schema does not define. -/
  | unknownKey (key : String) (permitted : List String)
  /-- A content pattern that is no glob. -/
  | invalidGlob (key pattern details : String)
  /-- A format that cannot express a value. -/
  | serialize (format details : String)
deriving DecidableEq

namespace ConfigError

/-- Values in double quotes, separated by commas. -/
def quoteAll (values : List String) : String :=
  ", ".intercalate (values.map fun value => "\"" ++ value ++ "\"")

/-- A number in decimal. -/
def decimal (n : Nat) : String := String.ofList (Nat.toDigits 10 n)

/-- The wording of an error. -/
def message : ConfigError → String
  | io path details => "I/O error on '" ++ path.text ++ "': " ++ details
  | parse source place details =>
    "failed to parse " ++ source ++ " at line " ++ decimal place.line ++ ", column " ++
      decimal place.column ++ ": " ++ details
  | unsupportedFormat path =>
    "unsupported configuration format for '" ++ path.text ++
      "' (expected .js, .cjs, .mjs, .json or .toml)"
  | notFound directory => "no configuration file found in '" ++ directory.text ++ "'"
  | missingKey key => "missing required key '" ++ key ++ "'"
  | invalidValue key actual expected =>
    "invalid value for '" ++ key ++ "': got " ++ actual ++ ", expected one of: " ++
      quoteAll expected
  | invalidType key expected actual =>
    "invalid type for '" ++ key ++ "': expected " ++ expected ++ ", found " ++ actual
  | emptySequence key => "'" ++ key ++ "' must not be empty"
  | duplicateKey key => "duplicate key '" ++ key ++ "'"
  | unknownKey key permitted =>
    "unknown key '" ++ key ++ "', expected one of: " ++ quoteAll permitted
  | invalidGlob key pattern details =>
    "invalid glob '" ++ pattern ++ "' in '" ++ key ++ "': " ++ details
  | serialize format details => "failed to serialize configuration as " ++ format ++ ": " ++ details

/-- The dotted key that a schema error names. -/
def key? : ConfigError → Option String
  | missingKey key => some key
  | invalidValue key _ _ => some key
  | invalidType key _ _ => some key
  | emptySequence key => some key
  | duplicateKey key => some key
  | unknownKey key _ => some key
  | invalidGlob key _ _ => some key
  | _ => none

/-- Whether the error is about a well-formed document. -/
def isSchema (e : ConfigError) : Bool := e.key?.isSome

/-- A parse error in a file, or in a text that came from nowhere in particular. -/
def atPlace (source? : Option Path) (place : Position) (details : String) : ConfigError :=
  .parse ((source?.map Path.text).getD "string") place details

end ConfigError

/-- Something worth telling that stops nothing. -/
inductive Warning where
  /-- A content pattern that selects no file. -/
  | unmatchedPattern (pattern : String)
  /-- A key outside the schema that was passed over. -/
  | unknownKey (key : String)
  /-- A font stack whose last family is no generic one. -/
  | nonGenericFallback (token family : String)
deriving DecidableEq

/-- The wording of a warning. -/
def Warning.message : Warning → String
  | unmatchedPattern pattern => "content pattern '" ++ pattern ++ "' matched no files"
  | unknownKey key => "ignoring unknown key '" ++ key ++ "'"
  | nonGenericFallback token family =>
    "font stack '" ++ token ++ "' ends with '" ++ family ++ "' instead of a generic family"

end CssBuild
