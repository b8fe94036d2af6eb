import CssBuild.Script.Fault

/-!
# CssBuild.Script.Trivia

What may stand between the tokens of a module, and where a line can end a
statement.

1. Blanks and comments separate tokens (`skip`). A block comment that is not
   closed is none. A null character ends a text, and with it every comment.
2. Where an operand can start, a line from `<!--` or `-->` on is a comment too
   (`gap`); such comments are reported, since one among the members of an
   object counts as a member.
3. `statementEnd?` says whether a statement without a semicolon ends here:
   at the end of the text, before `}`, or before a line break that is followed
   by something that cannot continue an expression.
-/

namespace CssBuild.Script

/-- The blanks of a module. -/
def isBlank (c : Char) : Bool :=
  let n := c.toNat
  (9 ≤ n && n ≤ 13) || n == 32 || n == 0x85 || n == 0xA0 || n == 0x1680 ||
    (0x2000 ≤ n && n ≤ 0x200B) || n == 0x2028 || n == 0x2029 || n == 0x202F || n == 0x205F ||
    n == 0x2060 || n == 0x3000 || n == 0xFEFF

/-- The characters at which a line comment ends. -/
def isLineEnd (c : Char) : Bool :=
  c == '\n' || c == '\r' || c == '\u2028' || c == '\u2029'

/-- What kind of text is being skipped. -/
inductive Skipping where
  /-- Blanks. -/
  | blanks
  /-- A comment that ends with its line. -/
  | line
  /-- A comment that has a mark at its end, and the text from its start on. -/
  | block (start : List Char)

/-- The text after blanks and comments, when some of them has been read already. -/
def skipFrom : Skipping → List Char → List Char
  | .block start, [] => start
  | .block _, '*' :: '/' :: after => skipFrom .blanks after
  | .block start, c :: rest => if c = '\x00' then start else skipFrom (.block start) rest
  | .line, [] => []
  | .line, c :: rest =>
    if c = '\x00' then c :: rest
    else if isLineEnd c then skipFrom .blanks rest
    else skipFrom .line rest
  | .blanks, [] => []
  | .blanks, '/' :: '/' :: after => skipFrom .line after
  | .blanks, '/' :: '*' :: after => skipFrom (.block ('/' :: '*' :: after)) after
  | .blanks, c :: rest => if isBlank c then skipFrom .blanks rest else c :: rest

/-- The text after blanks and comments. -/
def skip (s : List Char) : List Char := skipFrom .blanks s

/-- The rest of a line. -/
def lineRest (s : List Char) : List Char :=
  s.dropWhile fun c => !(c == '\n' || c == '\u2028' || c == '\u2029' || c == '\x00')

/-- The end of a line comment in the style of markup, if one starts here. -/
def markupComment? : List Char → Option (List Char)
  | '<' :: '!' :: '-' :: '-' :: rest => some (lineRest rest)
  | '-' :: '-' :: '>' :: rest => some (lineRest rest)
  | _ => none

/-- The text after blanks and comments of both kinds, with the starts of those in the style of
markup; each of them takes one unit of fuel. -/
def gapFrom : (fuel : Nat) → List Char → Found (List (List Char))
  | 0, s => ([], skip s)
  | fuel + 1, s =>
    match markupComment? (skip s) with
    | some rest =>
      let (more, after) := gapFrom fuel rest
      (skip s :: more, after)
    | none => ([], skip s)

/-- The text after blanks and comments of both kinds, with the starts of those in the style of
markup. -/
def gap (s : List Char) : Found (List (List Char)) := gapFrom s.length s

/-- The text where an operand or a statement starts. -/
def operandStart (s : List Char) : List Char := (gap s).2

/-! ## Statements without a semicolon -/

/-- The blanks that can stand before a line break. -/
def isSpace (c : Char) : Bool := let n := c.toNat; (9 ≤ n && n ≤ 13) || n == 32

/-- Whether a character breaks the line. -/
def isNewline (c : Char) : Bool := c == '\n' || c == '\u2028' || c == '\u2029'

/-- Whether the text after a line break starts with something that cannot continue an
expression. -/
def startsStatement : List Char → Bool
  | [] => true
  | c :: rest =>
    match c with
    | '\x60' | ',' | ':' | ';' | '*' | '%' | '>' | '<' | '=' | '[' | '(' | '?' | '^' | '|' | '&'
    | '/' => false
    | '.' => match rest with
      | d :: _ => '0' ≤ d && d ≤ '9'
      | [] => false
    | '+' => rest.head? == some '+'
    | '-' => rest.head? == some '-'
    | '!' => rest.head? != some '='
    | 'i' =>
      let letter (d : Char) : Bool := ('a' ≤ d && d ≤ 'z') || ('A' ≤ d && d ≤ 'Z')
      match rest with
      | 'n' :: after =>
        if after.head?.any letter then
          match after with
          | 's' :: 't' :: 'a' :: 'n' :: 'c' :: 'e' :: 'o' :: 'f' :: more => more.head?.any letter
          | _ => true
        else false
      | _ => true
    | _ => true

/-- The text after spaces and line breaks, and after comments; nothing if a slash starts no
comment. -/
def skipSpaces : Skipping → List Char → Option (List Char)
  | _, [] => some []
  | .block _, '*' :: '/' :: after => skipSpaces .blanks after
  | .block start, c :: rest =>
    if c = '\x00' then some (c :: rest) else skipSpaces (.block start) rest
  | .line, c :: rest =>
    if c = '\x00' then some (c :: rest)
    else if isNewline c then skipSpaces .blanks rest
    else skipSpaces .line rest
  | .blanks, '/' :: '/' :: after => skipSpaces .line after
  | .blanks, '/' :: '*' :: after => skipSpaces (.block []) after
  | .blanks, c :: rest =>
    if isSpace c then skipSpaces .blanks rest else if c = '/' then none else some (c :: rest)

/-- Whether a statement that has no semicolon ends here, the comments before the line break
already read. -/
def endsHere : List Char → Bool
  | [] => true
  | c :: rest =>
    if c = '}' ∨ c = '\x00' then true
    else if isNewline c then
      match skipSpaces .blanks rest with
      | some after => startsStatement after
      | none => false
    else if isSpace c then endsHere rest
    else false

/-- The text after one comment, if one starts here. -/
def afterComment? : Skipping → List Char → Option (List Char)
  | .blanks, '/' :: '/' :: rest => afterComment? .line rest
  | .blanks, '/' :: '*' :: rest => afterComment? (.block []) rest
  | .blanks, _ => none
  | .line, [] => some []
  | .line, c :: rest =>
    if isLineEnd c ∨ c = '\x00' then some (c :: rest) else afterComment? .line rest
  | .block _, [] => none
  | .block _, '*' :: '/' :: after => some after
  | .block start, c :: rest =>
    if c = '\x00' then none else afterComment? (.block start) rest

/-- The end of a statement, which a semicolon can write: the text after it, if the statement can
end here. Comments on the way each take one unit of fuel. -/
def statementEnd? : (fuel : Nat) → List Char → Option (List Char)
  | 0, _ => none
  | fuel + 1, s =>
    if endsHere s then some s
    else
      match s.dropWhile isBlank with
      | ';' :: rest => some rest
      | other =>
        match afterComment? .blanks other with
        | some rest => statementEnd? fuel rest
        | none => none

end CssBuild.Script
