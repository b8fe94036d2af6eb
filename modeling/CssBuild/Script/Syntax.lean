/-!
# CssBuild.Script.Syntax

The expressions of a configuration module, as far as reading a configuration
can tell them apart.

1. Literals keep their parts: the members of an object, the items of an array,
   the fragments and escapes of a string, the spelling of a number.
2. Calls, identifiers and operators keep the text they are written with. All
   else keeps the name of its kind.
3. Every node knows the text from its start on (`start`), which is what places
   are computed from.
-/

namespace CssBuild.Script

/-- A part of a string or template. -/
inductive Piece where
  /-- Characters that stand for themselves. -/
  | fragment (start text : List Char)
  /-- A backslash and what it escapes. -/
  | escape (start text : List Char)
  /-- An expression inside a template. -/
  | substitution (start : List Char)
deriving DecidableEq

/-- The name of a property in an object. -/
inductive Key where
  /-- A plain name. -/
  | name (text : List Char)
  /-- A string. -/
  | string (start : List Char) (pieces : List Piece)
  /-- A number, as it is spelled. -/
  | number (start text : List Char)
  /-- A name that only evaluation gives. -/
  | computed (start : List Char)
deriving DecidableEq

mutual

/-- An expression. -/
inductive Expr where
  /-- An object literal. -/
  | object (start : List Char) (members : List Member)
  /-- An array literal; holes leave no item. -/
  | array (start : List Char) (items : List Expr)
  /-- A string, or a template. -/
  | string (start : List Char) (pieces : List Piece)
  /-- A number, as it is spelled. -/
  | number (start text : List Char)
  /-- A truth value. -/
  | bool (value : Bool)
  /-- `null` or `undefined`. -/
  | absent (word : List Char)
  /-- An operator before its operand, with the text of both. -/
  | signed (start text operator : List Char) (operand : Expr)
  /-- An expression in parentheses. -/
  | parens (start : List Char) (inner : Expr)
  /-- A call, with its text. -/
  | call (start text : List Char)
  /-- A name. -/
  | identifier (start text : List Char)
  /-- A property of a value, with the texts of the value and of the property. -/
  | property (start object name : List Char)
  /-- A value given to a target. -/
  | assignment (start : List Char) (target value : Expr)
  /-- Any other expression, by the name of its kind. -/
  | other (start : List Char) (kind : String)

/-- A member of an object literal. -/
inductive Member where
  /-- A name with a value. -/
  | pair (key : Key) (value : Expr)
  /-- The members of another object. -/
  | spread (start : List Char)
  /-- Any other member, by the name of its kind. -/
  | other (start : List Char) (kind : String)

end

instance : Inhabited Expr := ⟨.bool false⟩

/-- Whether a plain assignment can have an expression as its target; objects and arrays are
targets in another reading of their text. -/
def Expr.isTarget : Expr → Bool
  | identifier _ _ | property _ _ _ | parens _ _ => true
  | absent word => word == ['u', 'n', 'd', 'e', 'f', 'i', 'n', 'e', 'd']
  | other _ kind => kind == "subscript expression"
  | _ => false

/-- A top-level statement of a module. -/
inductive Statement where
  /-- An expression. -/
  | expression (value : Expr)
  /-- A value exported as the default. -/
  | exportDefault (value : Expr)
  /-- Any other statement. -/
  | other

end CssBuild.Script
