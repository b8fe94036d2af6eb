import CssBuild.Script.Grammar.Rules

/-!
# CssBuild.Script.Grammar.Markup

Markup elements inside expressions. They are only recognized; an element
without children is told apart from one with them.
-/

namespace CssBuild.Script

namespace Rules

/-- Whether a character can go on the name of an element or an attribute. -/
def isMarkupName (c : Char) : Bool := isNameChar c || c == '-'

/-- The text after the name of an element or an attribute. -/
def markupName? (s : List Char) : Option (List Char) :=
  match s with
  | c :: rest => if isNameStart c then some (rest.dropWhile isMarkupName) else Option.none
  | [] => Option.none

/-- The text after the further parts of a name, which `.` or `:` start. -/
def markupNameParts : (fuel : Nat) → List Char → Skipped
  | 0, s => .ok s
  | fuel + 1, s =>
    match skip s with
    | c :: rest =>
      if c = '.' ∨ c = ':' then
        match markupName? (skip rest) with
        | some after => markupNameParts fuel after
        | Option.none => .error (unexpected rest)
      else .ok s
    | [] => .ok s

/-- An expression in braces, which can be left out. -/
def markupExpression (r : Rules) (s : List Char) : Skipped :=
  match operandStart s with
  | '}' :: rest => .ok rest
  | '.' :: '.' :: '.' :: rest => do
    let (_, rest) ← r.expression rest
    expect '}' rest
  | start => do
    let (_, rest) ← r.sequence start
    expect '}' rest

/-- The value of an attribute. -/
def markupValue (r : Rules) (s : List Char) : Skipped :=
  match skip s with
  | '"' :: rest =>
    match rest.dropWhile (· != '"') with
    | _ :: after => .ok after
    | [] => .error (unexpected s)
  | '\'' :: rest =>
    match rest.dropWhile (· != '\'') with
    | _ :: after => .ok after
    | [] => .error (unexpected s)
  | '{' :: rest => markupExpression r rest
  | '<' :: rest => do
    let (_, rest) ← r.markup ('<' :: rest)
    .ok rest
  | _ => .error (unexpected s)

/-- Attributes up to the end of a tag. -/
def readMarkupAttributes (r : Rules) (s : List Char) : Except Fault (Found Bool) :=
  match skip s with
  | '>' :: rest => .ok (false, rest)
  | '/' :: rest =>
    match skip rest with
    | '>' :: after => .ok (true, after)
    | _ => .error (unexpected rest)
  | '{' :: rest => do
    let rest ← markupExpression r rest
    r.markupAttributes rest
  | start =>
    match markupName? start with
    | some rest => do
      let rest ← markupNameParts rest.length rest
      match skip rest with
      | '=' :: rest => do
        let rest ← markupValue r rest
        r.markupAttributes rest
      | _ => r.markupAttributes rest
    | Option.none => .error (unexpected start)

/-- Whether a character of text between elements stands for itself. -/
def isMarkupText (c : Char) : Bool :=
  c != '<' && c != '>' && c != '{' && c != '}' && c != '&' && c != '\x00'

/-- The closing tag of an element after its slash. -/
def closingTag (s : List Char) : Skipped :=
  match skip s with
  | '>' :: rest => .ok rest
  | start =>
    match markupName? start with
    | some rest => do
      let rest ← markupNameParts rest.length rest
      expect '>' rest
    | Option.none => .error (unexpected start)

/-- Children of an element and its closing tag. -/
def readMarkupChildren (r : Rules) (s : List Char) : Skipped :=
  match s.dropWhile isMarkupText with
  | '<' :: rest =>
    match skip rest with
    | '/' :: after => closingTag after
    | _ => do
      let (_, rest) ← r.markup ('<' :: rest)
      r.markupChildren rest
  | '{' :: rest => do
    let rest ← markupExpression r rest
    r.markupChildren rest
  | '&' :: rest =>
    match rest.dropWhile fun c => isNameChar c || c == '#' with
    | ';' :: after => r.markupChildren after
    | _ => .error (unexpected ('&' :: rest))
  | other => .error (unexpected other)

/-- A markup element at its opening bracket. -/
def readMarkup (r : Rules) (s : List Char) : Except Fault (Found String) :=
  match s with
  | '<' :: rest =>
    match skip rest with
    | '>' :: after => do
      let rest ← r.markupChildren after
      .ok ("jsx element", rest)
    | start =>
      match markupName? start with
      | some rest => do
        let rest ← markupNameParts rest.length rest
        let (closed, rest) ← r.markupAttributes rest
        if closed then .ok ("jsx self closing element", rest)
        else do
          let rest ← r.markupChildren rest
          .ok ("jsx element", rest)
      | Option.none => .error (unexpected start)
  | _ => .error (unexpected s)

end Rules

end CssBuild.Script
