import CssBuild.Script.Syntax
import CssBuild.Script.Trivia

/-!
# CssBuild.Script.Token

The tokens of a module.

1. A name starts with any character that is no blank, digit, control character
   or punctuation, and goes on with such characters and digits; an escape
   `\u` stands for a character in it and is kept as it is spelled.
2. A number is a run of digits with single `_` between them, after `0x`, `0o`
   or `0b` or with point and exponent, and may end in `n`.
3. A string is cut into fragments and escapes; it does not span lines unless
   the line break is escaped, and no null character is part of it.
4. Of the operators that could stand at a place the longest one does.
-/

namespace CssBuild.Script

/-! ## Slices -/

/-- What was read between two unread texts. -/
def between (start rest : List Char) : List Char := start.take (start.length - rest.length)

/-! ## Names -/

/-- Whether a character is a decimal digit. -/
def isDigit (c : Char) : Bool := '0' ≤ c && c ≤ '9'

/-- Whether a character is a hexadecimal digit. -/
def isHexDigit (c : Char) : Bool :=
  isDigit c || ('a' ≤ c && c ≤ 'f') || ('A' ≤ c && c ≤ 'F')

/-- Whether a character is punctuation. -/
def isPunctuation (c : Char) : Bool :=
  [':', ';', '\x60', '"', '\'', '@', '#', '.', ',', '|', '^', '&', '<', '=', '>', '+', '-', '*', '/',
    '\\', '%', '?', '!', '~', '(', ')', '[', ']', '{', '}'].contains c

/-- Whether a character can go on a name. -/
def isNameChar (c : Char) : Bool := 0x20 ≤ c.toNat && !isBlank c && !isPunctuation c

/-- Whether a character can start a name. -/
def isNameStart (c : Char) : Bool := isNameChar c && !isDigit c

/-- The text after an escape in a name. -/
def nameEscape? : List Char → Option (List Char)
  | '\\' :: 'u' :: '{' :: rest =>
    match rest.takeWhile isHexDigit, rest.dropWhile isHexDigit with
    | _ :: _, '}' :: after => some after
    | _, _ => none
  | '\\' :: 'u' :: a :: b :: c :: d :: rest =>
    if isHexDigit a && isHexDigit b && isHexDigit c && isHexDigit d then some rest else none
  | _ => none

/-- The text after the characters that go on a name; each escape takes one unit of fuel. -/
def nameRest : (fuel : Nat) → List Char → List Char
  | 0, s => s.dropWhile isNameChar
  | fuel + 1, s =>
    let after := s.dropWhile isNameChar
    match nameEscape? after with
    | some rest => nameRest fuel rest
    | none => after

/-- A name at the start of a text. -/
def name? (s : List Char) : Option (Found (List Char)) :=
  match s with
  | [] => none
  | c :: rest =>
    if isNameStart c then
      let after := nameRest rest.length rest
      some (between s after, after)
    else
      match nameEscape? s with
      | some rest =>
        let after := nameRest rest.length rest
        some (between s after, after)
      | none => none

/-- The text after a given word, if the next name is that word. -/
def keyword? (word : List Char) (s : List Char) : Option (List Char) :=
  match name? s with
  | some (found, rest) => if found = word then some rest else none
  | none => none

/-! ## Numbers -/

/-- The text after a run of digits in which single `_` may stand between two digits. -/
def digitRun (digit : Char → Bool) : List Char → List Char
  | c :: '_' :: d :: rest =>
    if digit c then
      if digit d then digitRun digit (d :: rest) else '_' :: d :: rest
    else c :: '_' :: d :: rest
  | c :: rest => if digit c then digitRun digit rest else c :: rest
  | [] => []

/-- The text after an exponent, or the same text if there is none. -/
def exponentRest (s : List Char) : List Char :=
  match s with
  | c :: rest =>
    if c = 'e' ∨ c = 'E' then
      let digits := match rest with
        | '+' :: after => after
        | '-' :: after => after
        | after => after
      if digits.head?.any isDigit then digitRun isDigit digits else s
    else s
  | [] => []

/-- Whether the digits before a point can be followed by one: a single zero, or digits of which
the first or the second is not zero. -/
def takesFraction (digits : List Char) : Bool :=
  match digits with
  | ['0'] => true
  | '0' :: d :: _ => isDigit d && d != '0'
  | _ => true

/-- The digit class of a radix letter. -/
def radixDigit? (c : Char) : Option (Char → Bool) :=
  if c = 'x' ∨ c = 'X' then some isHexDigit
  else if c = 'o' ∨ c = 'O' then some fun d => '0' ≤ d && d ≤ '7'
  else if c = 'b' ∨ c = 'B' then some fun d => d == '0' || d == '1'
  else none

/-- The text without an `n` at its start. -/
def dropBigMark : List Char → List Char
  | 'n' :: rest => rest
  | s => s

/-- The text after a number without radix that starts with a digit. -/
def decimalRest (s : List Char) : List Char :=
  let rest := digitRun isDigit s
  let whole := between s rest
  if takesFraction whole then
    match rest with
    | '.' :: after =>
      exponentRest (if after.head?.any isDigit then digitRun isDigit after else after)
    | _ => if (exponentRest rest).length = rest.length then dropBigMark rest else exponentRest rest
  else dropBigMark rest

/-- The text after a number that starts with a digit or a point. -/
def numberRest? (s : List Char) : Option (List Char) :=
  match s with
  | '.' :: d :: _ =>
    if isDigit d then some (exponentRest (digitRun isDigit (s.drop 1))) else none
  | '0' :: letter :: d :: rest =>
    match radixDigit? letter with
    | some digit =>
      if digit d then some (dropBigMark (digitRun digit (d :: rest))) else some (decimalRest s)
    | none => some (decimalRest s)
  | c :: _ => if isDigit c then some (decimalRest s) else none
  | [] => none

/-! ## Strings -/

/-- Some characters at most `count` times, while they are in a class, and what follows. -/
def takeUpTo (digit : Char → Bool) : (count : Nat) → List Char → List Char
  | 0, s => s
  | count + 1, c :: rest => if digit c then takeUpTo digit count rest else c :: rest
  | _ + 1, [] => []

/-- The text after an escape that starts with the backslash of `s`. -/
def escapeRest? (s : List Char) : Option (List Char) :=
  match s with
  | '\\' :: c :: rest =>
    if c = 'x' then
      match rest with
      | a :: b :: after => if isHexDigit a && isHexDigit b then some after else none
      | _ => none
    else if c = 'u' then nameEscape? s
    else if c = '\x00' then none
    else if '0' ≤ c && c ≤ '7' then some (takeUpTo (fun d => '0' ≤ d && d ≤ '7') 2 rest)
    else if c = '\r' ∨ c = '?' then
      match rest with
      | d :: after => if isNewline d then some after else some rest
      | [] => some rest
    else some rest
  | _ => none

/-- Whether a character stands for itself in a string. -/
def isStringChar (quote c : Char) : Bool :=
  c != quote && c != '\\' && c != '\n' && c != '\r' && c != '\x00'

/-- The pieces of a string up to its closing quote; each piece takes one unit of fuel. -/
def stringPieces (quote : Char) : (fuel : Nat) → List Char → Except Fault (Found (List Piece))
  | 0, s => .error ⟨"syntax error", s⟩
  | fuel + 1, s =>
    match s with
    | [] => .error ⟨"syntax error", s⟩
    | c :: rest =>
      if c = quote then .ok ([], rest)
      else if c = '\\' then
        match escapeRest? s with
        | some after => do
          let (more, rest) ← stringPieces quote fuel after
          .ok (.escape s (between s after) :: more, rest)
        | none => .error ⟨"syntax error", s⟩
      else if isStringChar quote c then do
        let (more, rest) ← stringPieces quote fuel (s.dropWhile (isStringChar quote))
        .ok (.fragment s (s.takeWhile (isStringChar quote)) :: more, rest)
      else .error ⟨"syntax error", s⟩

/-- The text after a regular expression whose slash has been read: its pattern, its closing slash
and its flags. -/
def regexRest? : (inClass : Bool) → List Char → Option (List Char)
  | _, [] => none
  | inClass, '\\' :: c :: rest =>
    if c = '\n' ∨ c = '\x00' then none else regexRest? inClass rest
  | inClass, c :: rest =>
    if c = '\n' ∨ c = '\\' ∨ c = '\x00' then none
    else if inClass then regexRest? (c != ']') rest
    else if c = '/' then some (rest.dropWhile fun d => 'a' ≤ d && d ≤ 'z')
    else regexRest? (c == '[') rest

/-! ## Operators -/

/-- The operators between, before and after operands, longer ones first. -/
def operators : List (List Char) :=
  [['>', '>', '>', '='], ['.', '.', '.'], ['=', '=', '='], ['!', '=', '='], ['*', '*', '='],
    ['<', '<', '='], ['>', '>', '='], ['>', '>', '>'], ['&', '&', '='], ['|', '|', '='],
    ['?', '?', '='], ['=', '>'], ['=', '='], ['!', '='], ['<', '='], ['>', '='], ['&', '&'],
    ['|', '|'], ['?', '?'], ['?', '.'], ['+', '+'], ['-', '-'], ['+', '='], ['-', '='], ['*', '='],
    ['/', '='], ['%', '='], ['&', '='], ['|', '='], ['^', '='], ['<', '<'], ['>', '>'], ['*', '*'],
    ['='], ['<'], ['>'], ['+'], ['-'], ['*'], ['/'], ['%'], ['&'], ['|'], ['^'], ['?'], ['!'], ['~'],
    ['.']]

/-- The operator at the start of a text; `?.` before a digit is only its question mark. -/
def operator? (s : List Char) : Option (Found (List Char)) :=
  match operators.find? fun op => op.isPrefixOf s with
  | some op =>
    if op = ['?', '.'] ∧ (s.drop 2).head?.any isDigit then some (['?'], s.drop 1)
    else some (op, s.drop op.length)
  | none => none

/-- The operators between two operands. -/
def binaryOperators : List (List Char) :=
  [['&', '&'], ['|', '|'], ['>', '>'], ['>', '>', '>'], ['<', '<'], ['&'], ['^'], ['|'], ['+'],
    ['-'], ['*'], ['/'], ['%'], ['*', '*'], ['<'], ['<', '='], ['=', '='], ['=', '=', '='],
    ['!', '='], ['!', '=', '='], ['>', '='], ['>'], ['?', '?']]

/-- The operators that change a target. -/
def changeOperators : List (List Char) :=
  [['+', '='], ['-', '='], ['*', '='], ['/', '='], ['%', '='], ['^', '='], ['&', '='], ['|', '='],
    ['>', '>', '='], ['>', '>', '>', '='], ['<', '<', '='], ['*', '*', '='], ['&', '&', '='],
    ['|', '|', '='], ['?', '?', '=']]

/-- What stands at a place that does not fit, as a description. -/
def unexpected (s : List Char) : Fault :=
  let start := skip s
  match name? start with
  | some (found, _) => ⟨"syntax error near " ++ inTicks (String.ofList (found.take 24)), start⟩
  | none =>
    match start with
    | c :: _ => ⟨"syntax error near " ++ inTicks (String.singleton c), start⟩
    | [] => ⟨"syntax error", start⟩

/-- A token that should stand after what was read. -/
def missing (token : String) (s : List Char) : Fault := ⟨"missing " ++ inTicks token, s⟩

/-- Reads a given character after blanks and comments. -/
def expect (c : Char) (s : List Char) : Except Fault (List Char) :=
  match skip s with
  | d :: rest => if d = c then .ok rest else .error (missing (String.singleton c) s)
  | [] => .error (missing (String.singleton c) s)

end CssBuild.Script
