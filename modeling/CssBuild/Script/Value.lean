import CssBuild.Decimal.Layout
import CssBuild.Json.Lexical
import CssBuild.Json.Writer
import CssBuild.KeyPath
import CssBuild.Script.Module

/-!
# CssBuild.Script.Value

The values of literal expressions.

1. Strings, numbers, truth values, `null`, `undefined`, arrays and objects of
   such have a value; parentheses around them change nothing.
2. An integer literal is exact up to below `2 ^ 64`, in any radix; a decimal
   literal beyond that, or with a point or an exponent, is the nearest double.
   A minus sign keeps an integer exact down to `-2 ^ 63`.
3. An escape of a surrogate has to be one half of a pair of escapes.
4. A call has no value, but inside `plugins` it stands for its own text.
5. The first expression without a value, from left to right, is reported.
-/

namespace CssBuild.Script

/-! ## Numbers -/

/-- The digits of a radix with the letter that marks it. -/
def radix? : List Char → Option (Nat × List Char)
  | '0' :: letter :: digits =>
    if letter = 'x' ∨ letter = 'X' then some (16, digits)
    else if letter = 'o' ∨ letter = 'O' then some (8, digits)
    else if letter = 'b' ∨ letter = 'B' then some (2, digits)
    else none
  | _ => none

/-- The number that digits of a radix write, if all of them are digits of it. -/
def radixValue? (radix : Nat) (digits : List Char) : Option Nat :=
  if digits.isEmpty then none
  else digits.foldlM (fun acc c => do
    let digit ← Json.hexValue? c
    if digit < radix then some (acc * radix + digit) else none) 0

/-- A sign and digits after an exponent mark. -/
def exponentValue? (s : List Char) : Option Int :=
  let (negative, digits) := match s with
    | '-' :: rest => (true, rest)
    | '+' :: rest => (false, rest)
    | rest => (false, rest)
  (radixValue? 10 digits).map fun n => if negative then -(n : Int) else n

/-- A decimal literal without separators. -/
def decimalNumeral? (s : List Char) : Option Json.Numeral :=
  let whole := s.takeWhile isDigit
  let rest := s.dropWhile isDigit
  let (fraction?, rest) := match rest with
    | '.' :: after => (some (after.takeWhile isDigit), after.dropWhile isDigit)
    | after => (none, after)
  if (whole ++ fraction?.getD []).isEmpty then none
  else match rest with
    | [] => some ⟨whole, fraction?, none⟩
    | c :: after =>
      if c = 'e' ∨ c = 'E' then
        (exponentValue? after).map fun exponent => ⟨whole, fraction?, some exponent⟩
      else none

/-- The number that a literal writes. -/
def numberValue? (text : List Char) : Option Number :=
  let cleaned := text.filter (· != '_')
  match radix? cleaned with
  | some (radix, digits) => do
    let n ← radixValue? radix digits
    Number.ofInt? n
  | none => do
    let numeral ← decimalNumeral? cleaned
    numeral.toNumber? .nearest false

/-- The number with the other sign. -/
def negated? : Number → Option Number
  | .integer value _ =>
    match Number.ofInt? (-value) with
    | some found => some found
    | none => Number.ofIntRounded? (-value)
  | .double value => some (.double value.neg)

/-! ## Strings -/

/-- What an escape stands for. -/
inductive Escape where
  /-- A character. -/
  | char (c : Char)
  /-- One half of a pair of surrogates. -/
  | surrogate (code : Nat)
  /-- Nothing: the line goes on. -/
  | lineContinuation
  /-- No character at all. -/
  | invalid
deriving DecidableEq

/-- What a code stands for. -/
def codeEscape : Option Nat → Escape
  | some code =>
    if 0xD800 ≤ code ∧ code < 0xE000 then .surrogate code
    else if code < 0x110000 then .char (Char.ofNat code)
    else .invalid
  | none => .invalid

/-- The hexadecimal digits of `\u`, without the braces that may be around them. -/
def withoutBraces (digits : List Char) : List Char :=
  match digits with
  | '{' :: rest => if rest.getLast? = some '}' then rest.dropLast else digits
  | _ => digits

/-- What an escape stands for. -/
def unescape : List Char → Escape
  | '\\' :: first :: rest =>
    if first = 'n' then .char '\n'
    else if first = 't' then .char '\t'
    else if first = 'r' then .char '\r'
    else if first = 'b' then .char '\x08'
    else if first = 'f' then .char '\x0c'
    else if first = 'v' then .char '\x0b'
    else if '0' ≤ first ∧ first ≤ '7' then codeEscape (radixValue? 8 (first :: rest))
    else if isLineEnd first then .lineContinuation
    else if first = 'x' then codeEscape (radixValue? 16 rest)
    else if first = 'u' then codeEscape (radixValue? 16 (withoutBraces rest))
    else .char first
  | _ => .invalid

/-- The characters of some pieces, after a high surrogate or not, of a string that starts at
`start`. -/
def piecesValue (start : List Char) : (high : Option Nat) → List Piece →
    Except Fault (List Char)
  | some _, [] => .error ⟨"unpaired surrogate escape", start⟩
  | none, [] => .ok []
  | high, piece :: rest =>
    match piece with
    | .substitution at_ => .error ⟨"template substitutions need evaluation", at_⟩
    | .fragment at_ text =>
      match high with
      | some _ => .error ⟨"unpaired surrogate escape", at_⟩
      | none => do
        let more ← piecesValue start none rest
        .ok (text ++ more)
    | .escape at_ text =>
      match unescape text with
      | .invalid => .error ⟨"invalid escape " ++ inTicks (String.ofList text), at_⟩
      | .surrogate code =>
        if Json.isHigh code then piecesValue start (some code) rest
        else
          match high with
          | some first => do
            let more ← piecesValue start none rest
            .ok (Json.pairChar first code :: more)
          | none => .error ⟨"unpaired surrogate " ++ inTicks (String.ofList text), at_⟩
      | .char c =>
        match high with
        | some _ => .error ⟨"unpaired surrogate escape", at_⟩
        | none => do
          let more ← piecesValue start none rest
          .ok (c :: more)
      | .lineContinuation =>
        match high with
        | some _ => .error ⟨"unpaired surrogate escape", at_⟩
        | none => piecesValue start none rest

/-- The text of a string. -/
def stringValue (start : List Char) (pieces : List Piece) : Except Fault String :=
  (piecesValue start none pieces).map String.ofList

/-! ## Expressions -/

/-- The mapping in which calls stand for their text. -/
def plugins : String := "plugins"

/-- Whether a path is inside the plugins. -/
def isPluginPath (path : String) : Bool := (plugins ++ ".").toList.isPrefixOf path.toList

/-- A path as a description shows it. -/
def shownPath (path : String) : String := if path = "" then "(root)" else path

/-- A number, or the description of a literal that is none. -/
def numberValue (start text : List Char) : Except Fault Number :=
  match numberValue? text with
  | some n => .ok n
  | none => .error ⟨"unsupported number " ++ inTicks (String.ofList text), start⟩

/-- The number that a sign and its operand write. -/
def signedValue (start text operator : List Char) (operand : Expr) : Except Fault Number :=
  let unsupported : Fault := ⟨"unsupported expression " ++ inTicks (String.ofList text), start⟩
  match operand with
  | .number at_ digits =>
    if operator = ['+'] then numberValue at_ digits
    else if operator = ['-'] then do
      let n ← numberValue at_ digits
      match negated? n with
      | some found => .ok found
      | none => .error unsupported
    else .error unsupported
  | _ => .error unsupported

/-- The text of a property's name. -/
def Key.value : Key → Except Fault String
  | name text => .ok (String.ofList text)
  | string start pieces => stringValue start pieces
  | number start text => do
    let n ← numberValue start text
    .ok (String.ofList (Json.numberText n))
  | computed start => .error ⟨"computed property names need evaluation", start⟩

/-- An expression of a kind that has no value. -/
def unsupported (kind : String) (start : List Char) (path : String) : Fault :=
  ⟨"unsupported " ++ kind ++ " at " ++ inTicks (shownPath path), start⟩

mutual

/-- The value of an expression at a path, with every key of its objects, repeated ones included. -/
def Expr.value (path : String) : Expr → Except Fault Json
  | .object _ members => do
    let found ← membersValue path members
    .ok (.object found)
  | .array _ items => do
    let found ← itemsValue path 0 items
    .ok (.array found)
  | .string start pieces => do
    let found ← stringValue start pieces
    .ok (.string found)
  | .number start text => do
    let found ← numberValue start text
    .ok (.number found)
  | .signed start text operator operand => do
    let found ← signedValue start text operator operand
    .ok (.number found)
  | .bool b => .ok (.bool b)
  | .absent _ => .ok .null
  | .parens _ inner => Expr.value path inner
  | .call start text =>
    if isPluginPath path then .ok (.string (String.ofList text))
    else .error ⟨"unsupported function call at " ++ inTicks (shownPath path) ++
      "; calls are only kept inside " ++ inTicks plugins, start⟩
  | .identifier start text =>
    .error ⟨"identifier " ++ inTicks (String.ofList text) ++
      " needs evaluation; use a literal value", start⟩
  | .property start _ _ => .error (unsupported "member expression" start path)
  | .assignment start _ _ => .error (unsupported "assignment expression" start path)
  | .other start kind => .error (unsupported kind start path)

/-- The values of items from some number on. -/
def itemsValue (path : String) (i : Nat) : List Expr → Except Fault (List Json)
  | [] => .ok []
  | item :: rest => do
    let found ← Expr.value (KeyPath.child path (KeyPath.index i)) item
    let more ← itemsValue path (i + 1) rest
    .ok (found :: more)

/-- The entries that members make. -/
def membersValue (path : String) : List Member → Except Fault (List (String × Json))
  | [] => .ok []
  | member :: rest => do
    let entry ← memberValue path member
    let more ← membersValue path rest
    .ok (entry :: more)

/-- The entry that a member makes. -/
def memberValue (path : String) : Member → Except Fault (String × Json)
  | .pair key value => do
    let name ← key.value
    let found ← Expr.value (KeyPath.child path name) value
    .ok (name, found)
  | .spread start => .error ⟨"spread syntax is not supported", start⟩
  | .other start kind => .error ⟨"unsupported " ++ kind ++ " in object literal", start⟩

end

/-- The tree that a module exports, with every key of its objects. -/
def readTree (text : List Char) : Except Fault Json := do
  let statements ← readModule text
  match exported? statements with
  | some value => value.value ""
  | none =>
    .error ⟨"expected " ++ inTicks "module.exports =" ++ " or " ++ inTicks "export default", text⟩

/-- A tree as a module that exports it. -/
def render (tree : Json) : String := "module.exports = " ++ tree.pretty ++ ";\n"

end CssBuild.Script
