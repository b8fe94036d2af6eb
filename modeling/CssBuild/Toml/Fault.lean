import CssBuild.Text.Position
import CssBuild.Toml.Key

/-!
# CssBuild.Toml.Fault

Why a text is not TOML, and where.

1. A fault says which construct is not well formed, what could have stood
   there, and the cause if there is another one than the grammar.
2. A soft fault says that a construct does not start here; what tried it can
   go on without it.
3. Columns count characters.
-/

namespace CssBuild.Toml

/-- A cause other than the grammar. -/
inductive Cause where
  /-- A key that its table has already; the table is named where it has a header. -/
  | duplicate (key : String) (table : Option (List String))
  /-- A dotted key through something that is no table. -/
  | notTable (path : List String) (type : String)
  /-- A number outside its range. -/
  | outOfRange
  /-- An integer beyond 64 bits. -/
  | tooLarge (negative : Bool)
  /-- Too many arrays, tables or keys in each other. -/
  | tooDeep
deriving DecidableEq

/-- The wording of a cause. -/
def Cause.message : Cause → String
  | duplicate key none => "duplicate key \x60" ++ key ++ "\x60"
  | duplicate key (some []) => "duplicate key \x60" ++ key ++ "\x60 in document root"
  | duplicate key (some table) =>
    "duplicate key \x60" ++ key ++ "\x60 in table \x60" ++ ".".intercalate table ++ "\x60"
  | notTable path type =>
    "dotted key \x60" ++ ".".intercalate path ++
      "\x60 attempted to extend non-table type (" ++ type ++ ")"
  | outOfRange => "value is out of range"
  | tooLarge negative =>
    if negative then "number too small to fit in target type"
    else "number too large to fit in target type"
  | tooDeep => "recursion limit exceeded"

/-- A failed reading. -/
structure Fault where
  /-- The construct that is not well formed. -/
  label : Option String
  /-- What could have stood here. -/
  expected : List String
  /-- Another cause. -/
  cause : Option Cause
  /-- The text from the place on. -/
  rest : List Char
  /-- Whether the construct just does not start here. -/
  soft : Bool
deriving DecidableEq

/-- The wording of a fault: a line for each of its parts. -/
def Fault.message (fault : Fault) : String :=
  let labels := (fault.label.map ("invalid " ++ ·)).toList
  let expectations :=
    if fault.expected.isEmpty then [] else ["expected " ++ ", ".intercalate fault.expected]
  "\n".intercalate (labels ++ expectations ++ (fault.cause.map Cause.message).toList)

/-- How many UTF-8 bytes of a text come before a fault in it. -/
def Fault.offset (fault : Fault) (text : List Char) : Nat :=
  Position.byteWidth (Position.before text fault.rest)

/-- Where a fault is in a text. -/
def Fault.place (fault : Fault) (text : List Char) : Position :=
  Position.atOffset text (fault.offset text)

/-- The fault, in something that has a label; the innermost label counts. -/
def Fault.within (fault : Fault) (label : String) : Fault :=
  { fault with label := some (fault.label.getD label) }

/-- The fault, now of something that has to stand here. -/
def Fault.hard (fault : Fault) : Fault := { fault with soft := false }

/-- What a reader found, and what is then unread. -/
abbrev Found (α : Type) : Type := α × List Char

/-- A character as something expected. -/
def oneOf (c : String) : String := "\x60" ++ c ++ "\x60"

/-- A construct that does not start here. -/
def absent (rest : List Char) : Fault := ⟨none, [], none, rest, true⟩

/-- A construct that is not well formed. -/
def broken (label : Option String) (expected : List String) (rest : List Char) : Fault :=
  ⟨label, expected, none, rest, false⟩

/-- A construct that has another cause for not being well formed. -/
def refused (label : Option String) (cause : Cause) (rest : List Char) : Fault :=
  ⟨label, [], some cause, rest, false⟩

/-- A result within something that has a label. -/
def labelled {α : Type} (label : String) (result : Except Fault α) : Except Fault α :=
  result.mapError fun fault => fault.within label

@[simp] theorem labelled_ok {α : Type} (label : String) (value : α) :
    labelled label (.ok value) = .ok value := rfl

/-- A result of something that has to stand here. -/
def required {α : Type} (result : Except Fault α) : Except Fault α :=
  result.mapError Fault.hard

@[simp] theorem required_ok {α : Type} (value : α) : required (.ok value) = .ok value := rfl

end CssBuild.Toml
