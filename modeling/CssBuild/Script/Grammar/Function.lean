import CssBuild.Script.Grammar.Rules

/-!
# CssBuild.Script.Grammar.Function

Targets, parameters, functions and classes. All of these are only recognized:
no configuration value is made of them.
-/

namespace CssBuild.Script

namespace Rules

/-! ## Targets -/

/-- A value after `=`, if there is one. -/
def initializer (r : Rules) (s : List Char) : Skipped :=
  match symbol? ['='] s with
  | some rest => do
    let (_, rest) ← r.expression rest
    .ok rest
  | Option.none => .ok s

/-- A name, a property, a subscript, or an object or array as a target. -/
def readPattern (r : Rules) (s : List Char) : Skipped :=
  let start := operandStart s
  match start with
  | '{' :: rest => r.patternMembers rest
  | '[' :: rest => r.patternItems rest
  | '.' :: '.' :: '.' :: rest => r.pattern rest
  | _ =>
    match name? start with
    | some (found, rest) => do
      let (target, rest) ← r.chain start (.identifier start found) rest
      if target.isTarget then .ok rest else .error (unexpected start)
    | Option.none => .error (missing "identifier" s)

/-- The text after a comma or the closing character, and whether it was the latter. -/
def separator (close : Char) (s : List Char) : Except Fault (Found Bool) :=
  match skip s with
  | ',' :: rest => .ok (false, rest)
  | c :: rest =>
    if c = close then .ok (true, rest)
    else if c = '}' ∨ c = ']' ∨ c = ')' then .error (missing (String.singleton close) s)
    else .error (unexpected s)
  | [] => .error (missing (String.singleton close) s)

/-- The name of a property: a name, a string, a number, a private name or an expression in
brackets. -/
def propertyName (r : Rules) (start : List Char) : Except Fault (Found Key) :=
  match start with
  | [] => .error (unexpected start)
  | c :: rest =>
    if c = '"' ∨ c = '\'' then do
      let (pieces, rest) ← stringPieces c (rest.length + 1) rest
      .ok (.string start pieces, rest)
    else if c = '[' then do
      let (_, rest) ← r.expression rest
      let rest ← expect ']' rest
      .ok (.computed start, rest)
    else if c = '#' then
      match name? rest with
      | some (_, rest) => .ok (.computed start, rest)
      | Option.none => .error (unexpected start)
    else
      match numberRest? start with
      | some rest => .ok (.number start (between start rest), rest)
      | Option.none =>
        match name? start with
        | some (found, rest) => .ok (.name found, rest)
        | Option.none => .error (unexpected start)

/-- Goes on after a member of a list: with `more` after a comma, or with the text after the closing
character. -/
def goOn (close : Char) (more : List Char → Skipped) (s : List Char) : Skipped := do
  let (closed, rest) ← separator close s
  if closed then .ok rest else more rest

/-- Members of an object as a target. -/
def readPatternMembers (r : Rules) (s : List Char) : Skipped :=
  let start := operandStart s
  match start with
  | '}' :: rest => .ok rest
  | ',' :: rest => r.patternMembers rest
  | '.' :: '.' :: '.' :: rest => do
    let rest ← r.pattern rest
    goOn '}' r.patternMembers rest
  | _ => do
    let (key, rest) ← propertyName r start
    match operandStart rest with
    | ':' :: rest => do
      let rest ← r.pattern rest
      let rest ← initializer r rest
      goOn '}' r.patternMembers rest
    | _ =>
      match key with
      | .name _ => do
        let rest ← initializer r rest
        goOn '}' r.patternMembers rest
      | _ => .error (unexpected rest)

/-- Items of an array as a target. -/
def readPatternItems (r : Rules) (s : List Char) : Skipped :=
  match operandStart s with
  | ']' :: rest => .ok rest
  | ',' :: rest => r.patternItems rest
  | start => do
    let rest ← r.pattern start
    let rest ← initializer r rest
    goOn ']' r.patternItems rest

/-! ## Functions -/

/-- Parameters after a parenthesis or a comma. -/
def readParameters (r : Rules) (s : List Char) : Skipped :=
  match operandStart s with
  | ')' :: rest => .ok rest
  | start => do
    let rest ← r.pattern start
    let rest ← initializer r rest
    goOn ')' r.parameters rest

/-- Parameters in parentheses. -/
def signature (r : Rules) (s : List Char) : Skipped :=
  match operandStart s with
  | '(' :: rest => r.parameters rest
  | _ => .error (missing "(" s)

/-- Statements in braces. -/
def block (r : Rules) (s : List Char) : Skipped :=
  match operandStart s with
  | '{' :: rest => r.statements rest
  | _ => .error (missing "\x7b" s)

/-- What follows `function`: a name unless it may be left out, parameters and a body. Returns
whether it is a generator and whether it has a name. -/
def functionRest (r : Rules) (s : List Char) : Except Fault (Found (Bool × Bool)) := do
  let (generator, rest) := match operandStart s with
    | '*' :: rest => (true, rest)
    | _ => (false, s)
  let (named, rest) := match name? (operandStart rest) with
    | some (_, rest) => (true, rest)
    | Option.none => (false, rest)
  let rest ← signature r rest
  let rest ← block r rest
  .ok ((generator, named), rest)

/-- The body of an arrow function. -/
def arrowBody (r : Rules) (s : List Char) : Skipped :=
  match operandStart s with
  | '{' :: rest => r.statements rest
  | start => do
    let (_, rest) ← r.expression start
    .ok rest

/-! ## Classes -/

/-- Decorators before a class or a member of one. -/
def decorators (r : Rules) : (fuel : Nat) → List Char → Skipped
  | 0, s => .ok s
  | fuel + 1, s =>
    match operandStart s with
    | '@' :: rest =>
      let start := operandStart rest
      match start with
      | '(' :: _ => do
        let (_, rest) ← r.operand start
        decorators r fuel rest
      | _ =>
        match name? start with
        | some (found, after) => do
          let (_, rest) ← r.chain start (.identifier start found) after
          decorators r fuel rest
        | Option.none => .error (unexpected start)
    | start => .ok start

/-- Whether a property name can start here. -/
def startsName (s : List Char) : Bool :=
  match s with
  | [] => false
  | c :: _ =>
    c == '"' || c == '\'' || c == '[' || c == '#' || isDigit c || c == '\\' || isNameStart c

/-- The text after the words before the name of a method, each of which is a name itself unless
another name follows. -/
def modifiers (words : List String) (s : List Char) : List Char :=
  match words with
  | [] => s
  | word :: more =>
    match keyword? word.toList s with
    | some rest =>
      let after := operandStart rest
      if startsName after || after.head? == some '*' then modifiers more after
      else modifiers more s
    | Option.none => modifiers more s

/-- A method with its modifiers, at its first character. -/
def method (r : Rules) (s : List Char) : Skipped := do
  let start := modifiers ["static", "async", "get", "set"] s
  let start := match start with
    | '*' :: rest => operandStart rest
    | _ => start
  let (_, rest) ← propertyName r start
  let rest ← signature r rest
  block r rest

/-- A method or a field of a class, at its first character. -/
def classMember (r : Rules) (s : List Char) : Skipped := do
  let start := modifiers ["static", "async", "get", "set"] s
  let (star, start) := match start with
    | '*' :: rest => (true, operandStart rest)
    | _ => (false, start)
  let (_, rest) ← propertyName r start
  match operandStart rest with
  | '(' :: _ => do
    let rest ← signature r rest
    block r rest
  | _ =>
    if star then .error (missing "(" rest)
    else do
      let rest ← initializer r rest
      endStatement rest

/-- Members of a class up to its closing brace. -/
def readClassMembers (r : Rules) (s : List Char) : Skipped :=
  match operandStart s with
  | '}' :: rest => .ok rest
  | ';' :: rest => r.classMembers rest
  | start => do
    let start ← decorators r start.length start
    let staticBlock? := (keyword? "static".toList start).bind fun rest =>
      match operandStart rest with
      | '{' :: after => some after
      | _ => Option.none
    match staticBlock? with
    | some after => do
      let rest ← r.statements after
      r.classMembers rest
    | Option.none => do
      let rest ← classMember r start
      r.classMembers rest

/-- What follows `class`; returns whether it has a name. -/
def classRest (r : Rules) (s : List Char) : Except Fault (Found Bool) := do
  let (named, rest) := match name? (operandStart s) with
    | some (found, rest) => if found = "extends".toList then (false, s) else (true, rest)
    | Option.none => (false, s)
  let rest ← match keyword? "extends".toList (operandStart rest) with
    | some after => do
      let (_, rest) ← r.expression after
      (.ok rest : Skipped)
    | Option.none => .ok rest
  match operandStart rest with
  | '{' :: rest => do
    let rest ← r.classMembers rest
    .ok (named, rest)
  | _ => .error (missing "\x7b" rest)

end Rules

end CssBuild.Script
