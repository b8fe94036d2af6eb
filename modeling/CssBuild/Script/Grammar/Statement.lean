import CssBuild.Script.Grammar.Function

/-!
# CssBuild.Script.Grammar.Statement

Statements. Expressions and default exports are kept; any other statement is
only recognized.

1. A word that starts a statement of its own is always read as that word.
2. `let`, `async`, `import` and `export` are such words only before what can
   follow them.
-/

namespace CssBuild.Script

namespace Rules

/-- What a rule returns that reads a statement. -/
abbrev ParsedStatement : Type := Except Fault (Found Statement)

/-- A statement that is only recognized. -/
def recognized (s : Skipped) : ParsedStatement := s.map fun rest => (.other, rest)

/-- The text after a word, after blanks and comments. -/
def wordNext? (word : String) (s : List Char) : Option (List Char) :=
  keyword? word.toList (operandStart s)

/-- Whether a name comes next. -/
def nameNext (s : List Char) : Bool := (name? (operandStart s)).isSome

/-- Whether a target can start here. -/
def targetNext (s : List Char) : Bool :=
  match operandStart s with
  | '{' :: _ | '[' :: _ => true
  | start => (name? start).isSome

/-! ## Declarations -/

/-- Variables after their keyword or a comma. -/
def readDeclarators (r : Rules) (s : List Char) : Skipped := do
  let rest ← r.pattern s
  let rest ← initializer r rest
  match skip rest with
  | ',' :: more => r.declarators more
  | _ => .ok rest

/-- A declaration, if one starts here: variables, or a function or class with a name. -/
def declaration? (r : Rules) (start : List Char) : Option Skipped :=
  let binders (rest : List Char) : Skipped := do
    let rest ← r.declarators rest
    endStatement rest
  let function? (rest : List Char) : Option Skipped :=
    let after := match operandStart rest with
      | '*' :: more => more
      | _ => rest
    if nameNext after then some ((functionRest r rest).map Prod.snd) else Option.none
  match name? start with
  | Option.none => Option.none
  | some (word, rest) =>
    if word = "var".toList ∨ word = "const".toList then some (binders rest)
    else if word = "let".toList then
      if targetNext rest then some (binders rest) else Option.none
    else if word = "function".toList then function? rest
    else if word = "async".toList then (keyword? "function".toList (skip rest)).bind function?
    else if word = "class".toList then
      if nameNext rest && (wordNext? "extends" rest).isNone then
        some ((classRest r rest).map Prod.snd)
      else Option.none
    else Option.none

/-- An expression as a statement. -/
def expressionStatement (r : Rules) (start : List Char) : ParsedStatement :=
  match start with
  | '}' :: _ | ')' :: _ | ']' :: _ | ',' :: _ => .error (unexpected start)
  | _ => do
    let (value, rest) ← r.sequence start
    let rest ← endStatement rest
    .ok (.expression value, rest)

/-! ## Modules -/

/-- A string. -/
def stringLiteral (s : List Char) : Skipped :=
  match operandStart s with
  | c :: rest =>
    if c = '"' ∨ c = '\'' then (stringPieces c (rest.length + 1) rest).map Prod.snd
    else .error (unexpected s)
  | [] => .error (unexpected s)

/-- A name, or a string that stands for one. -/
def exportName (s : List Char) : Skipped :=
  match name? (operandStart s) with
  | some (_, rest) => .ok rest
  | Option.none => stringLiteral s

/-- Names in braces, each with another name after `as` or not; takes one unit of fuel for each. -/
def nameList : (fuel : Nat) → List Char → Skipped
  | 0, s => .error (unexpected s)
  | fuel + 1, s =>
    match operandStart s with
    | '}' :: rest => .ok rest
    | start => do
      let rest ← exportName start
      let rest ← match wordNext? "as" rest with
        | some after => exportName after
        | Option.none => .ok rest
      match operandStart rest with
      | ',' :: more => nameList fuel more
      | '}' :: more => .ok more
      | other => .error (unexpected other)

/-- `from` and a string. -/
def fromClause (s : List Char) : Skipped :=
  match wordNext? "from" s with
  | some rest => stringLiteral rest
  | Option.none => .error (unexpected s)

/-- Everything under one name, or names in braces. -/
def importedNames (s : List Char) : Skipped :=
  match operandStart s with
  | '*' :: rest =>
    match wordNext? "as" rest with
    | some after =>
      match name? (operandStart after) with
      | some (_, rest) => .ok rest
      | Option.none => .error (unexpected after)
    | Option.none => .error (unexpected rest)
  | '{' :: rest => nameList (rest.length + 1) rest
  | start => .error (unexpected start)

/-- What follows `import` in a statement. -/
def importRest (r : Rules) (s : List Char) : Skipped := do
  let start := operandStart s
  let rest ← match start with
    | '"' :: _ | '\'' :: _ => stringLiteral start
    | _ => do
      let rest ← match name? start with
        | some (_, rest) =>
          match operandStart rest with
          | ',' :: more => importedNames more
          | _ => .ok rest
        | Option.none => importedNames start
      fromClause rest
  let rest ← match wordNext? "with" rest with
    | some after => (r.operand (operandStart after)).map Prod.snd
    | Option.none => .ok rest
  endStatement rest

/-- What follows `export default`. -/
def exportDefault (r : Rules) (s : List Char) : ParsedStatement :=
  match declaration? r (operandStart s) with
  | some found => recognized found
  | Option.none => do
    let (value, rest) ← r.expression s
    let rest ← endStatement rest
    .ok (.exportDefault value, rest)

/-- What follows `export`. -/
def exportRest (r : Rules) (s : List Char) : ParsedStatement :=
  let start := operandStart s
  match start with
  | '*' :: rest => recognized do
    let rest ← match wordNext? "as" rest with
      | some after => exportName after
      | Option.none => .ok rest
    let rest ← fromClause rest
    endStatement rest
  | '{' :: rest => recognized do
    let rest ← nameList (rest.length + 1) rest
    let rest ← match wordNext? "from" rest with
      | some after => stringLiteral after
      | Option.none => .ok rest
    endStatement rest
  | _ =>
    match keyword? "default".toList start with
    | some rest => exportDefault r rest
    | Option.none => do
      let start ← decorators r start.length start
      match declaration? r start with
      | some found => recognized found
      | Option.none => .error (unexpected start)

/-! ## Control flow -/

/-- An expression in parentheses. -/
def condition (r : Rules) (s : List Char) : Skipped :=
  match operandStart s with
  | '(' :: rest => do
    let (_, rest) ← r.sequence rest
    expect ')' rest
  | _ => .error (missing "(" s)

/-- A statement that is part of another. -/
def body (r : Rules) (s : List Char) : Skipped := (r.statement s).map Prod.snd

/-- What follows `if`. -/
def ifRest (r : Rules) (s : List Char) : Skipped := do
  let rest ← condition r s
  let rest ← body r rest
  match wordNext? "else" rest with
  | some after => body r after
  | Option.none => .ok rest

/-- What follows the parenthesis of a `for` that runs through a value. -/
def forEachHead (r : Rules) (s : List Char) : Skipped := do
  let start := operandStart s
  let rest ← match name? start with
    | some (word, rest) =>
      if (word = "var".toList ∨ word = "let".toList ∨ word = "const".toList) ∧
          targetNext rest then do
        let rest ← r.pattern rest
        initializer r rest
      else r.pattern start
    | Option.none =>
      match start with
      | '(' :: _ => condition r start
      | _ => r.pattern start
  match (wordNext? "in" rest).or (wordNext? "of" rest) with
  | some after => do
    let (_, rest) ← r.sequence after
    expect ')' rest
  | Option.none => .error (unexpected rest)

/-- What follows the parenthesis of a `for` with a start, a condition and a step. -/
def forHead (r : Rules) (s : List Char) : Skipped := do
  let start := operandStart s
  let rest ← match start with
    | ';' :: rest => .ok rest
    | _ => do
      let rest ← match name? start with
        | some (word, rest) =>
          if (word = "var".toList ∨ word = "let".toList ∨ word = "const".toList) ∧
              targetNext rest then r.declarators rest
          else (r.sequence start).map Prod.snd
        | Option.none => (r.sequence start).map Prod.snd
      expect ';' rest
  let rest ← match operandStart rest with
    | ';' :: rest => .ok rest
    | start => do
      let (_, rest) ← r.sequence start
      expect ';' rest
  match operandStart rest with
  | ')' :: rest => .ok rest
  | start => do
    let (_, rest) ← r.sequence start
    expect ')' rest

/-- What follows `for`. -/
def forRest (r : Rules) (s : List Char) : Skipped :=
  let s := (wordNext? "await" s).getD s
  match operandStart s with
  | '(' :: rest => do
    let rest ← match forEachHead r rest with
      | .ok after => .ok after
      | .error _ => forHead r rest
    body r rest
  | _ => .error (missing "(" s)

/-- What follows `do`. -/
def doRest (r : Rules) (s : List Char) : Skipped := do
  let rest ← body r s
  match wordNext? "while" rest with
  | some after => do
    let rest ← condition r after
    match endStatement rest with
    | .ok ended => .ok ended
    | .error _ => .ok rest
  | Option.none => .error (missing "while" rest)

/-- What follows `try`. -/
def tryRest (r : Rules) (s : List Char) : Skipped := do
  let rest ← block r s
  let rest ← match wordNext? "catch" rest with
    | some after =>
      match operandStart after with
      | '(' :: inner => do
        let rest ← r.pattern inner
        let rest ← expect ')' rest
        block r rest
      | _ => block r after
    | Option.none => .ok rest
  match wordNext? "finally" rest with
  | some after => block r after
  | Option.none => .ok rest

/-- The cases of a switch up to its closing brace. -/
def readCases (r : Rules) (s : List Char) : Skipped :=
  match operandStart s with
  | '}' :: rest => .ok rest
  | start =>
    match keyword? "case".toList start with
    | some after => do
      let (_, rest) ← r.sequence after
      let rest ← expect ':' rest
      r.cases rest
    | Option.none =>
      match keyword? "default".toList start with
      | some after => do
        let rest ← expect ':' after
        r.cases rest
      | Option.none => do
        let rest ← body r start
        r.cases rest

/-- What follows `switch`. -/
def switchRest (r : Rules) (s : List Char) : Skipped := do
  let rest ← condition r s
  match operandStart rest with
  | '{' :: inner =>
    match operandStart inner with
    | '}' :: rest => .ok rest
    | start =>
      if (keyword? "case".toList start).isSome || (keyword? "default".toList start).isSome then
        r.cases start
      else .error (unexpected start)
  | _ => .error (missing "\x7b" rest)

/-- What follows `return`. -/
def returnRest (r : Rules) (s : List Char) : Skipped :=
  match statementEnd? (s.length + 1) s with
  | some rest => .ok rest
  | Option.none => do
    let (_, rest) ← r.sequence s
    endStatement rest

/-- What follows `break` and `continue`. -/
def jumpRest (s : List Char) : Skipped :=
  match statementEnd? (s.length + 1) s with
  | some rest => .ok rest
  | Option.none =>
    match name? (operandStart s) with
    | some (_, rest) => endStatement rest
    | Option.none => .error (unexpected s)

/-! ## Statements -/

/-- What a word at the start of a statement starts, if it is a word of that kind. -/
def keywordStatement? (r : Rules) (word rest : List Char) : Option Skipped :=
  if word = "if".toList then some (ifRest r rest)
  else if word = "for".toList then some (forRest r rest)
  else if word = "while".toList ∨ word = "with".toList then some do
    let rest ← condition r rest
    body r rest
  else if word = "do".toList then some (doRest r rest)
  else if word = "try".toList then some (tryRest r rest)
  else if word = "switch".toList then some (switchRest r rest)
  else if word = "return".toList then some (returnRest r rest)
  else if word = "throw".toList then some do
    let (_, rest) ← r.sequence rest
    endStatement rest
  else if word = "break".toList ∨ word = "continue".toList then some (jumpRest rest)
  else if word = "debugger".toList then some (endStatement rest)
  else Option.none

/-- A statement that is none of those that a keyword starts. -/
def plainStatement (r : Rules) (start : List Char) (word rest : List Char) : ParsedStatement :=
  match operandStart rest with
  | ':' :: after => recognized (body r after)
  | next =>
    if word = "import".toList ∧ next.head? ≠ some '(' ∧ next.head? ≠ some '.' then
      recognized (importRest r rest)
    else if word = "export".toList then
      match exportRest r rest with
      | .ok found => .ok found
      | .error fault =>
        match expressionStatement r start with
        | .ok found => .ok found
        | .error _ => .error fault
    else
      match declaration? r start with
      | some found => recognized found
      | Option.none => expressionStatement r start

/-- A statement. -/
def readStatement (r : Rules) (s : List Char) : ParsedStatement :=
  let start := operandStart s
  match start with
  | ';' :: rest => .ok (.other, rest)
  | '{' :: rest => recognized (r.statements rest)
  | '@' :: _ => do
    let first ← decorators r start.length start
    match keyword? "export".toList first with
    | some rest => exportRest r rest
    | Option.none =>
      match declaration? r first with
      | some found => recognized found
      | Option.none => expressionStatement r start
  | _ =>
    match name? start with
    | some (word, rest) =>
      match keywordStatement? r word rest with
      | some found => recognized found
      | Option.none => plainStatement r start word rest
    | Option.none => expressionStatement r start

/-- Statements up to a closing brace. -/
def readStatements (r : Rules) (s : List Char) : Skipped :=
  match operandStart s with
  | '}' :: rest => .ok rest
  | [] => .error (missing "\x7d" s)
  | start => do
    let rest ← body r start
    r.statements rest

end Rules

end CssBuild.Script
