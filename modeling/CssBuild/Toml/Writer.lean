import CssBuild.Json.Writer
import CssBuild.Toml.Key

/-!
# CssBuild.Toml.Writer

Trees as TOML documents.

1. An object at the top, or in another such object, is a table; a sequence of
   objects there, if it is not empty, is an array of tables. Anything else
   stands inline.
2. Each table is a section: its header, then its inline entries in order. The
   sections of the tables in it follow. The header is left out at the top,
   and where a table has entries but no inline ones.
3. An empty line stands between two sections.
4. There is no absent value, and integers have 64 bits with sign; a tree with
   anything else in it cannot be written.
-/

namespace CssBuild.Toml

/-! ## What cannot be written -/

/-- Why a tree has no TOML text. -/
inductive Unwritable where
  /-- It holds the absent value. -/
  | absentValue
  /-- It holds an integer beyond 64 bits with sign. -/
  | largeInteger
deriving DecidableEq

/-- The wording of why a tree has no TOML text. -/
def Unwritable.message : Unwritable → String
  | absentValue => "unsupported unit type"
  | largeInteger => "u64 value was too large"

mutual

/-- What of a tree cannot be written, the first such value counting. -/
def unwritable? : Json → Option Unwritable
  | .null => some .absentValue
  | .bool _ => none
  | .number (.integer n _) => if n < 0x8000000000000000 then none else some .largeInteger
  | .number (.double _) => none
  | .string _ => none
  | .array items => unwritableItem? items
  | .object entries => unwritableField? entries

/-- What of some items cannot be written. -/
def unwritableItem? : List Json → Option Unwritable
  | [] => none
  | item :: rest => (unwritable? item).or (unwritableItem? rest)

/-- What of some entries cannot be written. -/
def unwritableField? : List (String × Json) → Option Unwritable
  | [] => none
  | (_, value) :: rest => (unwritable? value).or (unwritableField? rest)

end

/-! ## Inline values -/

/-- A number. -/
def numberText : Number → List Char
  | .integer value _ => Json.integerText value
  | .double value => Layout.plain.text value

mutual

/-- A value within a line. -/
def inlineText : Json → List Char
  | .null => []
  | .bool true => ['t', 'r', 'u', 'e']
  | .bool false => ['f', 'a', 'l', 's', 'e']
  | .number n => numberText n
  | .string s => stringText s.toList
  | .array items => '[' :: (inlineItems true items ++ [']'])
  | .object [] => ['{', '}']
  | .object (entry :: rest) => '{' :: ' ' :: (inlineEntries true (entry :: rest) ++ [' ', '}'])

/-- Items, each but the first after a comma. -/
def inlineItems (first : Bool) : List Json → List Char
  | [] => []
  | item :: rest =>
    (if first then [] else [',', ' ']) ++ inlineText item ++ inlineItems false rest

/-- Entries, each but the first after a comma. -/
def inlineEntries (first : Bool) : List (String × Json) → List Char
  | [] => []
  | (key, value) :: rest =>
    (if first then [] else [',', ' ']) ++ keyText key.toList ++ ' ' :: '=' :: ' ' ::
      (inlineText value ++ inlineEntries false rest)

end

/-! ## Sections -/

/-- Whether a value is an object. -/
def isTable : Json → Bool
  | .object _ => true
  | _ => false

/-- Whether a value of a table is written as a section of its own, or as several. -/
def hasSection : Json → Bool
  | .object _ => true
  | .array items => !items.isEmpty && items.all isTable
  | _ => false

/-- A line of a key and its value. -/
def entryLine (entry : String × Json) : List Char :=
  keyText entry.1.toList ++ ' ' :: '=' :: ' ' :: (inlineText entry.2 ++ ['\n'])

/-- The keys on the way to a table, as its header names them. -/
def pathText (path : List String) : List Char :=
  ['.'].intercalate (path.map fun key => keyText key.toList)

/-- The line that starts the section of a table, or of an element of an array of tables. -/
def headerLineText (path : List String) (element : Bool) : List Char :=
  if element then '[' :: '[' :: (pathText path ++ [']', ']', '\n'])
  else '[' :: (pathText path ++ [']', '\n'])

/-- The section of a table, if it needs one. -/
def ownSection (path : List String) (element : Bool) (entries : List (String × Json)) :
    List (List Char) :=
  let own := entries.filter fun entry => !hasSection entry.2
  let body := own.flatMap entryLine
  if path.isEmpty then if own.isEmpty then [] else [body]
  else if !element && own.isEmpty && !entries.isEmpty then []
  else [headerLineText path element ++ body]

mutual

/-- The sections of a table. -/
def sections (path : List String) (element : Bool) : Json → List (List Char)
  | .object entries => ownSection path element entries ++ entrySections path entries
  | _ => []

/-- The sections of the tables in a table. -/
def entrySections (path : List String) : List (String × Json) → List (List Char)
  | [] => []
  | (key, .object entries) :: rest =>
    sections (path ++ [key]) false (.object entries) ++ entrySections path rest
  | (key, .array items) :: rest =>
    (if hasSection (.array items) then itemSections (path ++ [key]) items else []) ++
      entrySections path rest
  | _ :: rest => entrySections path rest

/-- The sections of the elements of an array of tables. -/
def itemSections (path : List String) : List Json → List (List Char)
  | [] => []
  | item :: rest => sections path true item ++ itemSections path rest

end

/-- The document of a tree. -/
def write (tree : Json) : Except Unwritable String :=
  match unwritable? tree with
  | some reason => .error reason
  | none => .ok (String.ofList (['\n'].intercalate (sections [] false tree)))

end CssBuild.Toml
