import CssBuild.Script.Token

/-!
# CssBuild.Script.Grammar.Rules

The rules of the module grammar, by which each other rule calls them.

1. A rule takes the unread text and returns what it read and what is then
   unread, or a fault.
2. Rules whose reading is of no further use return only the unread text.
3. The rules at one level call those of the level below; the rules of level
   zero read nothing. A text has enough levels when they outnumber the steps
   that its reading takes.
-/

namespace CssBuild.Script

/-- What a rule returns that only recognizes. -/
abbrev Skipped : Type := Except Fault (List Char)

/-- What a rule returns that reads an expression. -/
abbrev Parsed : Type := Except Fault (Found Expr)

/-- The rules at one level. -/
structure Rules where
  /-- An expression without commas. -/
  expression : List Char → Parsed
  /-- Expressions separated by commas. -/
  sequence : List Char → Parsed
  /-- An expression without operators between operands, at its first character. -/
  operand : List Char → Parsed
  /-- What follows a value directly: properties, subscripts and arguments. Takes the start of the
  value and the value. -/
  chain : List Char → Expr → List Char → Parsed
  /-- The operators and operands after an operand. Takes the start of the operand and the
  operand. -/
  binary : List Char → Expr → List Char → Parsed
  /-- The items of an array after a bracket or a comma. -/
  items : List Char → Except Fault (Found (List Expr))
  /-- The members of an object after a brace or a comma. -/
  members : List Char → Except Fault (Found (List Member))
  /-- The pieces of a template up to its closing mark. -/
  template : List Char → Except Fault (Found (List Piece))
  /-- Arguments after a parenthesis or a comma. -/
  arguments : List Char → Skipped
  /-- A target of an assignment or a parameter. -/
  pattern : List Char → Skipped
  /-- The members of an object as a target, after a brace or a comma. -/
  patternMembers : List Char → Skipped
  /-- The items of an array as a target, after a bracket or a comma. -/
  patternItems : List Char → Skipped
  /-- Parameters after a parenthesis or a comma. -/
  parameters : List Char → Skipped
  /-- The members of a class after its brace. -/
  classMembers : List Char → Skipped
  /-- A statement. -/
  statement : List Char → Except Fault (Found Statement)
  /-- Statements up to a closing brace. -/
  statements : List Char → Skipped
  /-- The cases of a switch up to its closing brace. -/
  cases : List Char → Skipped
  /-- Variables after their keyword or a comma. -/
  declarators : List Char → Skipped
  /-- A markup element; returns the name of its kind. -/
  markup : List Char → Except Fault (Found String)
  /-- The attributes of a markup element up to the end of its tag; returns whether the tag also
  closes the element. -/
  markupAttributes : List Char → Except Fault (Found Bool)
  /-- The children of a markup element and its closing tag. -/
  markupChildren : List Char → Skipped

/-- The rules that read nothing. -/
def Rules.none : Rules where
  expression s := .error (unexpected s)
  sequence s := .error (unexpected s)
  operand s := .error (unexpected s)
  chain _ _ s := .error (unexpected s)
  binary _ _ s := .error (unexpected s)
  items s := .error (unexpected s)
  members s := .error (unexpected s)
  template s := .error (unexpected s)
  arguments s := .error (unexpected s)
  pattern s := .error (unexpected s)
  patternMembers s := .error (unexpected s)
  patternItems s := .error (unexpected s)
  parameters s := .error (unexpected s)
  classMembers s := .error (unexpected s)
  statement s := .error (unexpected s)
  statements s := .error (unexpected s)
  cases s := .error (unexpected s)
  declarators s := .error (unexpected s)
  markup s := .error (unexpected s)
  markupAttributes s := .error (unexpected s)
  markupChildren s := .error (unexpected s)

/-- The text after a given operator, if it is the one that stands here after blanks and
comments. -/
def symbol? (op : List Char) (s : List Char) : Option (List Char) :=
  match operator? (skip s) with
  | some (found, rest) => if found = op then some rest else Option.none
  | Option.none => Option.none

/-- The end of a statement. -/
def endStatement (s : List Char) : Skipped :=
  match statementEnd? (s.length + 1) s with
  | some rest => .ok rest
  | Option.none => .error (unexpected s)

end CssBuild.Script
