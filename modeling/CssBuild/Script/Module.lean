import CssBuild.Script.Grammar.Expression
import CssBuild.Script.Grammar.Statement

/-!
# CssBuild.Script.Module

Modules as lists of statements, and the value that a module exports.

1. `rules` ties the rules of the grammar together, level by level.
2. The exported value is that of the first statement that exports one: a
   default export, or an assignment to `module.exports`.
-/

namespace CssBuild.Script

/-- The rules at a level, each with the rules of the level below. -/
def rules : Nat → Rules
  | 0 => Rules.none
  | level + 1 =>
    { expression := fun s => Rules.readExpression (rules level) s
      sequence := fun s => Rules.readSequence (rules level) s
      operand := fun s => Rules.readOperand (rules level) s
      chain := fun start value s => Rules.readChain (rules level) start value s
      binary := fun start left s => Rules.readBinary (rules level) start left s
      items := fun s => Rules.readItems (rules level) s
      members := fun s => Rules.readMembers (rules level) s
      template := fun s => Rules.readTemplate (rules level) s
      arguments := fun s => Rules.readArguments (rules level) s
      pattern := fun s => Rules.readPattern (rules level) s
      patternMembers := fun s => Rules.readPatternMembers (rules level) s
      patternItems := fun s => Rules.readPatternItems (rules level) s
      parameters := fun s => Rules.readParameters (rules level) s
      classMembers := fun s => Rules.readClassMembers (rules level) s
      statement := fun s => Rules.readStatement (rules level) s
      statements := fun s => Rules.readStatements (rules level) s
      cases := fun s => Rules.readCases (rules level) s
      declarators := fun s => Rules.readDeclarators (rules level) s
      markup := fun s => Rules.readMarkup (rules level) s
      markupAttributes := fun s => Rules.readMarkupAttributes (rules level) s
      markupChildren := fun s => Rules.readMarkupChildren (rules level) s }

/-- Enough levels for a text: no more than eight rules call each other before a character is
read. -/
def levelsFor (s : List Char) : Nat := 8 * s.length + 16

/-- The statements of a text, each of which takes one unit of fuel. -/
def readProgram (r : Rules) : (fuel : Nat) → List Char → Except Fault (List Statement)
  | 0, s => .error (unexpected s)
  | fuel + 1, s =>
    match operandStart s with
    | [] => .ok []
    | start => do
      let (found, rest) ← r.statement start
      let more ← readProgram r fuel rest
      .ok (found :: more)

/-- The text after a first line that names an interpreter. -/
def afterHashBang : List Char → List Char
  | '#' :: '!' :: rest => rest.dropWhile (· != '\n')
  | s => s

/-- The statements of a module. -/
def readModule (text : List Char) : Except Fault (List Statement) :=
  readProgram (rules (levelsFor text)) (text.length + 1) (afterHashBang text)

/-- The value that a statement exports. -/
def Statement.exported? : Statement → Option Expr
  | .exportDefault value => some value
  | .expression (.assignment _ (.property _ object name) value) =>
    if object = "module".toList ∧ name = "exports".toList then some value else none
  | _ => none

/-- The value that a module exports. -/
def exported? (statements : List Statement) : Option Expr :=
  statements.findSome? Statement.exported?

end CssBuild.Script
