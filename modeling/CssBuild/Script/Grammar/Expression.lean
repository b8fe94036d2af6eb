import CssBuild.Script.Grammar.Function
import CssBuild.Script.Grammar.Markup

/-!
# CssBuild.Script.Grammar.Expression

Expressions.

1. A literal is read into its parts. Of any other expression only what a
   diagnostic tells is kept.
2. Parentheses are read as an expression first, and as parameters if an arrow
   follows or if they hold none.
3. Objects and arrays before an assignment are read again as targets.
-/

namespace CssBuild.Script

namespace Rules

/-! ## Arrays, objects and templates -/

/-- Comments in the style of markup as items. -/
def commentItems (marks : List (List Char)) : List Expr :=
  marks.map fun start => .other start "html comment"

/-- Comments in the style of markup as members. -/
def commentMembers (marks : List (List Char)) : List Member :=
  marks.map fun start => .other start "html comment"

/-- Goes on after an item of an array. -/
def afterItem (r : Rules) (item : Expr) (s : List Char) : Except Fault (Found (List Expr)) := do
  let (closed, rest) ← separator ']' s
  if closed then .ok ([item], rest)
  else do
    let (more, rest) ← r.items rest
    .ok (item :: more, rest)

/-- Items of an array after a bracket or a comma. -/
def readItems (r : Rules) (s : List Char) : Except Fault (Found (List Expr)) := do
  let (marks, start) := gap s
  let (found, rest) ← match start with
    | ']' :: rest => .ok ([], rest)
    | ',' :: rest => r.items rest
    | '.' :: '.' :: '.' :: rest => do
      let (_, rest) ← r.expression rest
      afterItem r (.other start "spread element") rest
    | _ => do
      let (item, rest) ← r.expression start
      afterItem r item rest
  .ok (commentItems marks ++ found, rest)

/-- Goes on after a member of an object. -/
def afterMember (r : Rules) (member : Member) (s : List Char) :
    Except Fault (Found (List Member)) := do
  let (closed, rest) ← separator '}' s
  if closed then .ok ([member], rest)
  else do
    let (more, rest) ← r.members rest
    .ok (member :: more, rest)

/-- A member of an object with its name, at its first character. -/
def namedMember (r : Rules) (start : List Char) : Except Fault (Found Member) :=
  match start with
  | '*' :: _ | '@' :: _ => do
    let first ← decorators r start.length start
    let rest ← method r first
    .ok (.other start "method definition", rest)
  | _ => do
    let (key, rest) ← propertyName r start
    match operandStart rest with
    | ':' :: after => do
      let (value, rest) ← r.expression after
      .ok (.pair key value, rest)
    | '(' :: _ => do
      let rest ← method r start
      .ok (.other start "method definition", rest)
    | after =>
      match key with
      | .name _ =>
        if startsName after || after.head? == some '*' then do
          let rest ← method r start
          .ok (.other start "method definition", rest)
        else .ok (.other start "shorthand property identifier", rest)
      | _ => .error (unexpected after)

/-- Members of an object after a brace or a comma. -/
def readMembers (r : Rules) (s : List Char) : Except Fault (Found (List Member)) := do
  let (marks, start) := gap s
  let (found, rest) ← match start with
    | '}' :: rest => .ok ([], rest)
    | ',' :: rest => r.members rest
    | '.' :: '.' :: '.' :: rest => do
      let (_, rest) ← r.expression rest
      afterMember r (.spread start) rest
    | _ => do
      let (member, rest) ← namedMember r start
      afterMember r member rest
  .ok (commentMembers marks ++ found, rest)

/-- Whether a character of a template stands for itself, whatever follows. -/
def isTemplateChar (c : Char) : Bool := c != '\x60' && c != '\\' && c != '$' && c != '\x00'

/-- The text after characters of a template that stand for themselves. -/
def templateChars : List Char → List Char
  | [] => []
  | '$' :: '{' :: rest => '$' :: '{' :: rest
  | c :: rest => if c = '$' ∨ isTemplateChar c then templateChars rest else c :: rest

/-- Pieces of a template up to its closing mark. -/
def readTemplate (r : Rules) (s : List Char) : Except Fault (Found (List Piece)) :=
  match s with
  | [] => .error ⟨"syntax error", s⟩
  | c :: rest =>
    if c = '\x60' then .ok ([], rest)
    else if c = '\\' then
      match escapeRest? s with
      | some after => do
        let (more, rest) ← r.template after
        .ok (.escape s (between s after) :: more, rest)
      | Option.none => .error ⟨"syntax error", s⟩
    else
      let after := templateChars s
      if after.length < s.length then do
        let (more, rest) ← r.template after
        .ok (.fragment s (between s after) :: more, rest)
      else
        match s with
        | '$' :: '{' :: inner => do
          let (_, rest) ← r.sequence inner
          let rest ← expect '}' rest
          let (more, rest) ← r.template rest
          .ok (.substitution s :: more, rest)
        | _ => .error ⟨"syntax error", s⟩

/-! ## Calls -/

/-- Arguments after a parenthesis or a comma. -/
def readArguments (r : Rules) (s : List Char) : Skipped :=
  match operandStart s with
  | ')' :: rest => .ok rest
  | ',' :: rest => r.arguments rest
  | '.' :: '.' :: '.' :: rest => do
    let (_, rest) ← r.expression rest
    goOn ')' r.arguments rest
  | start => do
    let (_, rest) ← r.expression start
    goOn ')' r.arguments rest

/-- A subscript after its bracket. -/
def subscript (r : Rules) (s : List Char) : Skipped := do
  let (_, rest) ← r.sequence s
  expect ']' rest

/-- The name of a property after its dot. -/
def dotName (s : List Char) : Except Fault (Found (List Char)) :=
  let start := operandStart s
  match start with
  | '#' :: rest =>
    match name? rest with
    | some (_, after) => .ok (between start after, after)
    | Option.none => .error (unexpected start)
  | _ =>
    match name? start with
    | some found => .ok found
    | Option.none => .error (unexpected start)

/-- What follows a value directly. -/
def readChain (r : Rules) (start : List Char) (value : Expr) (s : List Char) : Parsed :=
  let next := skip s
  match next with
  | '(' :: rest => do
    let rest ← r.arguments rest
    r.chain start (.call start (between start rest)) rest
  | '[' :: rest => do
    let rest ← subscript r rest
    r.chain start (.other start "subscript expression") rest
  | '\x60' :: rest => do
    let (_, rest) ← r.template rest
    r.chain start (.call start (between start rest)) rest
  | '.' :: rest =>
    if rest.head? = some '.' then .ok (value, s)
    else do
      let (name, rest) ← dotName rest
      r.chain start (.property start (between start s) name) rest
  | _ =>
    match symbol? ['?', '.'] next with
    | some rest =>
      match skip rest with
      | '(' :: rest => do
        let rest ← r.arguments rest
        r.chain start (.call start (between start rest)) rest
      | '[' :: rest => do
        let rest ← subscript r rest
        r.chain start (.other start "subscript expression") rest
      | _ => do
        let (name, rest) ← dotName rest
        r.chain start (.property start (between start s) name) rest
    | Option.none => .ok (value, s)

/-- What is constructed after `new`: a value with properties and subscripts but no arguments. Each
of them takes one unit of fuel. -/
def constructorRest (r : Rules) : (fuel : Nat) → List Char → Skipped
  | 0, s => .ok s
  | fuel + 1, s =>
    match skip s with
    | '[' :: rest => do
      let rest ← subscript r rest
      constructorRest r fuel rest
    | '\x60' :: rest => do
      let (_, rest) ← r.template rest
      constructorRest r fuel rest
    | '.' :: rest => do
      let (_, rest) ← dotName rest
      constructorRest r fuel rest
    | '(' :: rest => r.arguments rest
    | _ => .ok s

/-! ## Operands -/

/-- An arrow function after its parameters, which are known to be followed by an arrow. -/
def arrow (r : Rules) (start : List Char) (s : List Char) : Parsed :=
  match symbol? ['=', '>'] s with
  | some rest => do
    let rest ← arrowBody r rest
    .ok (.other start "arrow function", rest)
  | Option.none => .error (unexpected s)

/-- An arrow function at the parenthesis before its parameters. -/
def arrowFrom (r : Rules) (start : List Char) (s : List Char) : Parsed := do
  let rest ← signature r s
  arrow r start rest

/-- Parentheses at their first character, around an expression or around parameters. -/
def parentheses (r : Rules) (start : List Char) : Parsed :=
  let (marks, inner) := gap (start.drop 1)
  let grouped : Parsed := do
    let (value, rest) ← r.sequence inner
    let rest ← expect ')' rest
    .ok (.parens start (((commentItems marks).head?).getD value), rest)
  match grouped with
  | .ok (value, rest) =>
    match symbol? ['=', '>'] rest with
    | some _ => arrowFrom r start start
    | Option.none => .ok (value, rest)
  | .error fault =>
    match arrowFrom r start start with
    | .ok found => .ok found
    | .error _ => .error fault

/-- What `new` starts. -/
def construction (r : Rules) (start : List Char) (s : List Char) : Parsed :=
  let inner := operandStart s
  match inner with
  | '.' :: rest => do
    let (name, rest) ← dotName rest
    if name = "target".toList then .ok (.other start "meta property", rest)
    else .error (unexpected inner)
  | _ =>
    match keyword? "new".toList inner with
    | some _ => do
      let (_, rest) ← r.operand inner
      .ok (.other start "new expression", rest)
    | Option.none => do
      let first : Skipped := match inner with
        | '(' :: rest => do
          let (_, rest) ← r.sequence rest
          expect ')' rest
        | _ =>
          match keyword? "class".toList inner with
          | some rest => (classRest r rest).map Prod.snd
          | Option.none =>
            match keyword? "function".toList inner with
            | some rest => (functionRest r rest).map Prod.snd
            | Option.none =>
              match name? inner with
              | some (_, rest) => .ok rest
              | Option.none => .error (missing "identifier" s)
      let rest ← first
      let rest ← constructorRest r (rest.length + 1) rest
      .ok (.other start "new expression", rest)

/-- What `import` starts inside an expression. -/
def importing (r : Rules) (start : List Char) (s : List Char) : Parsed :=
  match operandStart s with
  | '(' :: rest => do
    let rest ← r.arguments rest
    .ok (.call start (between start rest), rest)
  | '.' :: rest => do
    let (name, rest) ← dotName rest
    if name = "meta".toList then .ok (.other start "meta property", rest)
    else .ok (.property start (between start s) name, rest)
  | _ => .error (unexpected s)

/-- What `async` starts: a function, an arrow function, or the name itself. -/
def asynchronous (r : Rules) (start : List Char) (s : List Char) : Parsed :=
  match keyword? "function".toList (skip s) with
  | some rest => do
    let ((generator, _), rest) ← functionRest r rest
    .ok (.other start (if generator then "generator function" else "function expression"), rest)
  | Option.none =>
    let plain : Parsed := .ok (.identifier start "async".toList, s)
    match skip s with
    | '(' :: _ =>
      match arrowFrom r start s with
      | .ok found => .ok found
      | .error _ => plain
    | next =>
      match name? next with
      | some (_, after) =>
        match symbol? ['=', '>'] after with
        | some _ => arrow r start after
        | Option.none => plain
      | Option.none =>
        match symbol? ['=', '>'] s with
        | some _ => arrow r start s
        | Option.none => plain

/-- An operand that starts with a name. -/
def named (r : Rules) (start : List Char) (word s : List Char) : Parsed :=
  if word = "true".toList then .ok (.bool true, s)
  else if word = "false".toList then .ok (.bool false, s)
  else if word = "null".toList ∨ word = "undefined".toList then .ok (.absent word, s)
  else if word = "this".toList then .ok (.other start "this", s)
  else if word = "super".toList then .ok (.other start "super", s)
  else if word = "function".toList then do
    let ((generator, _), rest) ← functionRest r s
    .ok (.other start (if generator then "generator function" else "function expression"), rest)
  else if word = "class".toList then do
    let (_, rest) ← classRest r s
    .ok (.other start "class", rest)
  else if word = "new".toList then construction r start s
  else if word = "import".toList then importing r start s
  else if word = "async".toList then asynchronous r start s
  else match symbol? ['=', '>'] s with
    | some _ => arrow r start s
    | Option.none => .ok (.identifier start word, s)

/-- An operand without the operators before it and without what follows it directly, at its first
character. -/
def primary (r : Rules) (start : List Char) : Parsed :=
  match start with
  | [] => .error (missing "identifier" start)
  | c :: rest =>
    if c = '"' ∨ c = '\'' then do
      let (pieces, rest) ← stringPieces c (rest.length + 1) rest
      .ok (.string start pieces, rest)
    else if c = '\x60' then do
      let (pieces, rest) ← r.template rest
      .ok (.string start pieces, rest)
    else if c = '[' then do
      let (items, rest) ← r.items rest
      .ok (.array start items, rest)
    else if c = '{' then do
      let (members, rest) ← r.members rest
      .ok (.object start members, rest)
    else if c = '(' then parentheses r start
    else if c = '/' then
      match regexRest? false rest with
      | some after =>
        if rest.head? = some '/' then .error (unexpected start)
        else .ok (.other start "regex", after)
      | Option.none => .error (unexpected start)
    else if c = '<' then do
      let (kind, rest) ← r.markup start
      .ok (.other start kind, rest)
    else if c = '@' then
      match decorators r start.length start with
      | .error _ => .error (unexpected start)
      | .ok first =>
        match keyword? "class".toList first with
        | some rest => do
          let (_, rest) ← classRest r rest
          .ok (.other start "class", rest)
        | Option.none => .error (unexpected start)
    else if c = '#' then
      match name? rest with
      | some (_, after) =>
        match keyword? "in".toList (skip after) with
        | some _ => .ok (.other start "private property identifier", after)
        | Option.none => .error (unexpected after)
      | Option.none => .error (unexpected start)
    else match numberRest? start with
      | some rest => .ok (.number start (between start rest), rest)
      | Option.none =>
        match name? start with
        | some (word, rest) => named r start word rest
        | Option.none => .error (unexpected start)

/-- Whether the text between two places has no line break. -/
def sameLine (s rest : List Char) : Bool := !(between s rest).any isNewline

/-- What follows an operand and makes it a target: a step or an assignment. -/
def afterOperand (r : Rules) (start : List Char) (value : Expr) (s : List Char) : Parsed :=
  match operator? (skip s) with
  | Option.none => .ok (value, s)
  | some (op, rest) =>
    if op = ['+', '+'] ∨ op = ['-', '-'] then
      if sameLine s rest then .ok (.other start "update expression", rest) else .ok (value, s)
    else if op = ['='] then
      let target : Bool := value.isTarget || (match value with
        | .object _ _ | .array _ _ =>
          match r.pattern start with
          | .ok after => after.length == s.length
          | .error _ => false
        | _ => false)
      if target then do
        let (given, rest) ← r.expression rest
        .ok (.assignment start value given, rest)
      else .ok (value, s)
    else if changeOperators.contains op then
      let target : Bool := match value with
        | .absent _ => false
        | _ => value.isTarget
      if target then do
        let (_, rest) ← r.expression rest
        .ok (.other start "augmented assignment expression", rest)
      else .ok (value, s)
    else .ok (value, s)

/-- An object that is only a target, before its assignment. -/
def patternAssignment (r : Rules) (start : List Char) : Parsed := do
  let rest ← r.pattern start
  match symbol? ['='] rest with
  | some rest => do
    let (_, rest) ← r.expression rest
    .ok (.other start "assignment expression", rest)
  | Option.none => .error (unexpected rest)

/-- An operand with its operator in front of it. -/
def signedOperand (r : Rules) (start operator s : List Char) : Parsed := do
  let (operand, rest) ← r.operand (operandStart s)
  .ok (.signed start (between start rest) operator operand, rest)

/-- An operand that a word before it makes another expression. -/
def wordOperand? (r : Rules) (start : List Char) (word s : List Char) : Option Parsed :=
  if word = "typeof".toList ∨ word = "void".toList ∨ word = "delete".toList then
    some (signedOperand r start word s)
  else if word = "await".toList then
    some do
      let (_, rest) ← r.operand (operandStart s)
      .ok (.other start "await expression", rest)
  else if word = "yield".toList then
    match operandStart s with
    | '*' :: rest => some do
      let (_, rest) ← r.expression rest
      .ok (.other start "yield expression", rest)
    | _ =>
      match r.expression s with
      | .ok (_, rest) => some (.ok (.other start "yield expression", rest))
      | .error _ => some (.ok (.other start "yield expression", s))
  else Option.none

/-- An operand with what follows it directly, at its first character. -/
def plainOperand (r : Rules) (start : List Char) : Parsed :=
  match primary r start with
  | .ok (value, rest) => do
    let (value, rest) ← r.chain start value rest
    afterOperand r start value rest
  | .error fault =>
    match start with
    | '{' :: _ =>
      match patternAssignment r start with
      | .ok found => .ok found
      | .error _ => .error fault
    | _ => .error fault

/-- An operand at its first character. -/
def readOperand (r : Rules) (start : List Char) : Parsed :=
  match start with
  | '+' :: '+' :: rest | '-' :: '-' :: rest => do
    let (_, rest) ← r.operand (operandStart rest)
    .ok (.other start "update expression", rest)
  | '!' :: rest => signedOperand r start ['!'] rest
  | '~' :: rest => signedOperand r start ['~'] rest
  | '+' :: rest => signedOperand r start ['+'] rest
  | '-' :: rest => signedOperand r start ['-'] rest
  | _ =>
    match name? start with
    | some (word, rest) =>
      match wordOperand? r start word rest with
      | some found => found
      | Option.none => plainOperand r start
    | Option.none => plainOperand r start

/-! ## Expressions -/

/-- The operators and operands after an operand. -/
def readBinary (r : Rules) (start : List Char) (left : Expr) (s : List Char) : Parsed :=
  let next := skip s
  let word? := (keyword? "in".toList next).or (keyword? "instanceof".toList next)
  match word? with
  | some rest => do
    let (_, rest) ← r.operand (operandStart rest)
    r.binary start (.other start "binary expression") rest
  | Option.none =>
    match operator? next with
    | Option.none => .ok (left, s)
    | some (op, rest) =>
      if op = ['?'] then do
        let (_, rest) ← r.expression rest
        let rest ← expect ':' rest
        let (_, rest) ← r.expression rest
        .ok (.other start "ternary expression", rest)
      else if binaryOperators.contains op then do
        let (_, rest) ← r.operand (operandStart rest)
        r.binary start (.other start "binary expression") rest
      else .ok (left, s)

/-- An expression without commas. -/
def readExpression (r : Rules) (s : List Char) : Parsed := do
  let start := operandStart s
  match start with
  | c :: _ =>
    if c = '}' ∨ c = ']' ∨ c = ')' ∨ c = ',' ∨ c = ';' then .error (missing "identifier" s)
    else do
      let (left, rest) ← r.operand start
      r.binary start left rest
  | [] => .error (missing "identifier" s)

/-- Expressions separated by commas. -/
def readSequence (r : Rules) (s : List Char) : Parsed := do
  let (first, rest) ← r.expression s
  match skip rest with
  | ',' :: more => do
    let (_, rest) ← r.sequence more
    .ok (.other (operandStart s) "sequence expression", rest)
  | _ => .ok (first, rest)

end Rules

end CssBuild.Script
