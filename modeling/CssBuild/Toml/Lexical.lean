import CssBuild.Json.Lexical
import CssBuild.Toml.Fault

/-!
# CssBuild.Toml.Lexical

The leaves of TOML: blanks, comments, strings, numbers and dates.

1. A line ends in `'\n'`, which `'\r'` may precede; a `'\r'` elsewhere is not
   allowed.
2. Between digits of a number single `_` may stand. An integer fits 64 bits
   with sign. What starts with digits is read as a date or time if it has that
   shape, then as a float, then as an integer.
3. Dates keep their text, brought to one form: `T` between date and time, the
   fraction of a second without zeros at its end and cut to nine digits, and
   the offset `Z` or hours and minutes.
-/

namespace CssBuild.Toml

open Json (isDigit hexValue? digitsValue Numeral)

/-! ## Blanks -/

/-- Whether a character is a blank within a line. -/
def isBlank (c : Char) : Bool := c == ' ' || c == '\t'

/-- The text after blanks within the line. -/
def skipBlanks (s : List Char) : List Char := s.dropWhile isBlank

/-- The text after the end of a line, if it ends here. -/
def lineBreak? : List Char → Option (List Char)
  | '\n' :: rest => some rest
  | '\r' :: '\n' :: rest => some rest
  | _ => none

/-- Whether a character can stand in a comment. -/
def isCommentChar (c : Char) : Bool := c == '\t' || (0x20 ≤ c.toNat && c.toNat != 0x7F)

/-- The text after a comment, or the same text if there is none. -/
def skipComment : List Char → List Char
  | '#' :: rest => rest.dropWhile isCommentChar
  | s => s

/-- Reads the end of a line, a comment before it included. -/
def lineEnd (s : List Char) : Except Fault (List Char) :=
  let after := skipComment (skipBlanks s)
  match after with
  | [] => .ok []
  | _ =>
    match lineBreak? after with
    | some rest => .ok rest
    | none => .error (broken none ["newline", oneOf "#"] after)

/-- The text after blanks, comments and line breaks; each of them takes one unit of fuel. -/
def skipLines : (fuel : Nat) → List Char → List Char
  | 0, s => s
  | fuel + 1, s =>
    match s with
    | [] => []
    | c :: rest =>
      if isBlank c then skipLines fuel rest
      else if c = '#' then skipLines fuel (rest.dropWhile isCommentChar)
      else match lineBreak? s with
        | some after => skipLines fuel after
        | none => s

/-- The text after blanks, comments and line breaks. -/
def skipSpace (s : List Char) : List Char := skipLines (s.length + 1) s

/-! ## Strings -/

/-- Whether a character can stand for itself in a basic string. -/
def isBasicChar (c : Char) : Bool :=
  c == '\t' || (0x20 ≤ c.toNat && c != '"' && c != '\\' && c.toNat != 0x7F)

/-- Whether a character can stand in a literal string. -/
def isLiteralChar (c : Char) : Bool :=
  c == '\t' || (0x20 ≤ c.toNat && c != '\'' && c.toNat != 0x7F)

/-- Reads the hexadecimal digits of an escape. -/
def hexEscape (count : Nat) (s : List Char) : Except Fault (Found Char) :=
  let label := if count = 4 then "unicode 4-digit hex code" else "unicode 8-digit hex code"
  let digits := (s.take count).takeWhile fun c => (hexValue? c).isSome
  if digits.length < count then .error (broken (some label) [] s)
  else
    let code := digits.foldl (fun acc c => acc * 16 + (hexValue? c).getD 0) 0
    if code < 0x110000 ∧ ¬(0xD800 ≤ code ∧ code < 0xE000) then
      .ok (Char.ofNat code, s.drop count)
    else .error (refused (some label) .outOfRange s)

/-- The character that a letter after a backslash stands for. -/
def escapeLetter? (c : Char) : Option Char :=
  if c = 'b' then some '\x08'
  else if c = 'f' then some '\x0c'
  else if c = 'n' then some '\n'
  else if c = 'r' then some '\r'
  else if c = 't' then some '\t'
  else if c = '\\' then some '\\'
  else if c = '"' then some '"'
  else none

/-- Reads what follows a backslash. -/
def escape (s : List Char) : Except Fault (Found Char) :=
  match s with
  | [] => .error (absent s)
  | c :: rest =>
    if c = 'u' then hexEscape 4 rest
    else if c = 'U' then hexEscape 8 rest
    else match escapeLetter? c with
      | some found => .ok (found, rest)
      | none => .error (broken (some "escape sequence")
          (["b", "f", "n", "r", "t", "u", "U", "\\", "\""].map oneOf) rest)

/-- The characters of a basic string and its closing quote; each takes one unit of fuel. -/
def basicChars : (fuel : Nat) → List Char → Except Fault (Found (List Char))
  | 0, s => .error (broken (some "basic string") [] s)
  | _ + 1, [] => .error (broken (some "basic string") [] [])
  | fuel + 1, c :: s =>
    if c = '"' then .ok ([], s)
    else if c = '\\' then
      if s.isEmpty then .error (broken (some "basic string") [] (c :: s))
      else do
        let (found, rest) ← escape s
        let (more, rest) ← basicChars fuel rest
        .ok (found :: more, rest)
    else if isBasicChar c then do
      let (more, rest) ← basicChars fuel s
      .ok (c :: more, rest)
    else .error (broken (some "basic string") [] (c :: s))

/-- Reads a basic string whose opening quote has been read. -/
def basicString (s : List Char) : Except Fault (Found (List Char)) := basicChars (s.length + 1) s

/-- Reads a literal string whose opening quote has been read. -/
def literalString (s : List Char) : Except Fault (Found (List Char)) :=
  match s.dropWhile isLiteralChar with
  | '\'' :: rest => .ok (s.takeWhile isLiteralChar, rest)
  | other => .error (broken (some "literal string") [] other)

/-- How many copies of a quote a text starts with, and the text after them. -/
def quoteRun (q : Char) (s : List Char) : Nat × List Char :=
  ((s.takeWhile (· == q)).length, s.dropWhile (· == q))

/-- The text after a backslash at the end of a line, and after the blanks and lines that follow. -/
def continuedLine? (s : List Char) : Option (List Char) :=
  (lineBreak? (skipBlanks s)).map fun rest =>
    rest.dropWhile fun c => isBlank c || c == '\n' || c == '\r'

/-- The characters of a string of several lines and its closing quotes, which up to two further
quotes may precede; each takes one unit of fuel. -/
def linesChars (q : Char) : (fuel : Nat) → List Char → Except Fault (Found (List Char))
  | 0, s => .error (broken none [] s)
  | fuel + 1, s =>
    match s with
    | [] => .error (broken none [] [])
    | c :: rest =>
      if c = q then
        let (count, after) := quoteRun q s
        if 3 ≤ count then
          if count ≤ 5 then .ok (List.replicate (count - 3) q, after)
          else .ok ([q, q], s.drop 5)
        else do
          let (more, rest) ← linesChars q fuel after
          .ok (List.replicate count q ++ more, rest)
      else if c = '\\' ∧ q = '"' then
        match continuedLine? rest with
        | some after => linesChars q fuel after
        | none =>
          if rest.isEmpty then .error (broken none [] s)
          else do
            let (found, after) ← escape rest
            let (more, rest) ← linesChars q fuel after
            .ok (found :: more, rest)
      else
        match lineBreak? s with
        | some after => do
          let (more, rest) ← linesChars q fuel after
          .ok ('\n' :: more, rest)
        | none =>
          if isBasicChar c || isLiteralChar c then do
            let (more, rest) ← linesChars q fuel rest
            .ok (c :: more, rest)
          else .error (broken none [] s)

/-- Reads a string of several lines whose opening quotes have been read. A newline right after
them is not part of it. -/
def linesString (q : Char) (s : List Char) : Except Fault (Found (List Char)) :=
  let start := (lineBreak? s).getD s
  labelled (if q = '"' then "multiline basic string" else "multiline literal string")
    (linesChars q (start.length + 1) start)

/-- Reads a string, if one starts here. -/
def string (s : List Char) : Except Fault (Found (List Char)) :=
  match s with
  | '"' :: '"' :: '"' :: rest => linesString '"' rest
  | '"' :: rest => basicString rest
  | '\'' :: '\'' :: '\'' :: rest => linesString '\'' rest
  | '\'' :: rest => literalString rest
  | _ => .error (absent s)

/-! ## Numbers -/

/-- The text after further digits, each `_` standing before one. -/
def digitsRest (digit : Char → Bool) (label : String) : List Char → Except Fault (List Char)
  | [] => .ok []
  | '_' :: [] => .error (broken (some label) ["digit"] [])
  | '_' :: d :: rest =>
    if digit d then digitsRest digit label rest
    else .error (broken (some label) ["digit"] (d :: rest))
  | c :: rest => if digit c then digitsRest digit label rest else .ok (c :: rest)

/-- The text after a sign, if there is one. -/
def afterSign : List Char → List Char
  | '+' :: rest => rest
  | '-' :: rest => rest
  | s => s

/-- The text after a decimal integer. -/
def decimalRest (s : List Char) : Except Fault (List Char) :=
  match afterSign s with
  | '0' :: rest => .ok rest
  | c :: rest =>
    if isDigit c then digitsRest isDigit "integer" rest
    else .error { absent (c :: rest) with label := some "integer" }
  | [] => .error { absent [] with label := some "integer" }

/-- What was read between two unread texts, without the `_` in it. -/
def plainDigits (s rest : List Char) : List Char :=
  (s.take (s.length - rest.length)).filter (· != '_')

/-- The text after one digit or more. -/
def someDigits (s : List Char) : Except Fault (List Char) :=
  match s with
  | c :: rest =>
    if isDigit c then digitsRest isDigit "floating-point number" rest
    else .error (broken (some "floating-point number") ["digit"] s)
  | [] => .error (broken (some "floating-point number") ["digit"] s)

/-- The text after the exponent that may stand here. -/
def exponentRest (s : List Char) : Except Fault (List Char) :=
  match s with
  | c :: rest => if c = 'e' ∨ c = 'E' then someDigits (afterSign rest) else .ok s
  | [] => .ok s

/-- An integer of decimal digits with a sign. -/
def signedDigits (s : List Char) : Int :=
  match s with
  | '-' :: digits => -(digitsValue digits : Int)
  | '+' :: digits => digitsValue digits
  | digits => digitsValue digits

/-- The double that the text of a float names. -/
def floatValue? (text : List Char) : Option Double :=
  let (negative, unsigned) := match text with
    | '-' :: rest => (true, rest)
    | '+' :: rest => (false, rest)
    | rest => (false, rest)
  let whole := unsigned.takeWhile isDigit
  let rest := unsigned.dropWhile isDigit
  let (fraction, rest) := match rest with
    | '.' :: after => (after.takeWhile isDigit, after.dropWhile isDigit)
    | after => ([], after)
  let exponent := match rest with
    | _ :: after => signedDigits after
    | [] => 0
  Numeral.toDouble? ⟨whole, some fraction, some exponent⟩ negative

/-- Reads a float; infinities and not-a-number are read as the absent value. -/
def float (s : List Char) : Except Fault (Found Json) :=
  match afterSign s with
  | 'i' :: 'n' :: 'f' :: rest => .ok (.null, rest)
  | 'n' :: 'a' :: 'n' :: rest => .ok (.null, rest)
  | _ => do
    let whole ← labelled "floating-point number" (decimalRest s)
    let rest ← match whole with
      | '.' :: after => do
        let after ← someDigits after
        exponentRest after
      | c :: _ => if c = 'e' ∨ c = 'E' then exponentRest whole else .error (absent whole)
      | [] => .error (absent whole)
    match floatValue? (plainDigits s rest) with
    | some d => .ok (.number (.double d), rest)
    | none => .error (broken (some "floating-point number") [] s)

/-- The number as an integer of 64 bits with sign. -/
def int64 (n : Int) (start rest : List Char) : Except Fault (Found Json) :=
  if -0x8000000000000000 ≤ n ∧ n < 0x8000000000000000 then
    match Number.ofInt? n with
    | some found => .ok (.number found, rest)
    | none => .error (refused none (.tooLarge (n < 0)) start)
  else .error (refused none (.tooLarge (n < 0)) start)

/-- Reads an integer with a radix, after its two letters. -/
def radixInteger (radix : Nat) (label : String) (s : List Char) : Except Fault (Found Json) :=
  let digit (c : Char) : Bool := match hexValue? c with
    | some n => n < radix
    | none => false
  match s with
  | c :: rest =>
    if digit c then do
      let after ← digitsRest digit label rest
      let n := (plainDigits s after).foldl (fun acc d => acc * radix + (hexValue? d).getD 0) 0
      int64 n s after
    else .error (broken (some label) [] s)
  | [] => .error (broken (some label) [] s)

/-- Reads an integer. -/
def integer (s : List Char) : Except Fault (Found Json) :=
  match s with
  | '0' :: 'x' :: rest => radixInteger 16 "hexadecimal integer" rest
  | '0' :: 'o' :: rest => radixInteger 8 "octal integer" rest
  | '0' :: 'b' :: rest => radixInteger 2 "binary integer" rest
  | _ => do
    let rest ← decimalRest s
    int64 (signedDigits (plainDigits s rest)) s rest

/-! ## Dates and times -/

/-- Some digits at the start of a text. -/
def fixedDigits? (count : Nat) (s : List Char) : Option (Found (List Char)) :=
  let digits := s.take count
  if digits.length = count ∧ digits.all isDigit then some (digits, s.drop count) else none

/-- Two digits that write a number of a range. -/
def twoDigits (low high : Nat) (label : String) (s : List Char) :
    Except Fault (Found (List Char)) :=
  match fixedDigits? 2 s with
  | some (digits, rest) =>
    let n := digitsValue digits
    if low ≤ n ∧ n ≤ high then .ok (digits, rest)
    else .error (refused (some label) .outOfRange s)
  | none => .error (broken (some label) [] s)

/-- A given character. -/
def mark (c : Char) (label : String) (s : List Char) : Except Fault (List Char) :=
  match s with
  | d :: rest => if d = c then .ok rest else .error (broken (some label) [] s)
  | [] => .error (broken (some label) [] s)

/-- The days of a month. -/
def daysIn (year month : Nat) : Nat :=
  if month = 2 then
    if year % 4 = 0 ∧ (year % 100 ≠ 0 ∨ year % 400 = 0) then 29 else 28
  else if month = 4 ∨ month = 6 ∨ month = 9 ∨ month = 11 then 30
  else 31

/-- Reads a date. -/
def date (s : List Char) : Except Fault (Found (List Char)) :=
  match fixedDigits? 4 s with
  | some (year, '-' :: rest) => do
    let (month, rest) ← twoDigits 1 12 "date-time" rest
    let dayStart ← mark '-' "date-time" rest
    let (day, rest) ← twoDigits 1 31 "date-time" dayStart
    if daysIn (digitsValue year) (digitsValue month) < digitsValue day then
      .error (refused (some "date-time") .outOfRange dayStart)
    else .ok (year ++ '-' :: month ++ '-' :: day, rest)
  | _ => .error (absent s)

/-- The fraction of a second in its one form. -/
def secondFraction (digits : List Char) : List Char :=
  let kept := ((digits.take 9).reverse.dropWhile (· == '0')).reverse
  if kept.isEmpty then [] else '.' :: kept

/-- Reads a time of day. -/
def time (label : String) (s : List Char) : Except Fault (Found (List Char)) :=
  match twoDigits 0 23 label s with
  | .ok (hour, ':' :: rest) => do
    let (minute, rest) ← twoDigits 0 59 label rest
    let rest ← mark ':' label rest
    let (second, rest) ← twoDigits 0 60 label rest
    let whole := hour ++ ':' :: minute ++ ':' :: second
    match rest with
    | '.' :: d :: after =>
      if isDigit d then
        .ok (whole ++ secondFraction ((d :: after).takeWhile isDigit),
          (d :: after).dropWhile isDigit)
      else .ok (whole, rest)
    | _ => .ok (whole, rest)
  | _ => .error (absent s)

/-- Reads an offset from universal time, if there is one. -/
def offset (s : List Char) : Except Fault (Found (List Char)) :=
  match s with
  | [] => .ok ([], s)
  | c :: rest =>
    if c = 'Z' ∨ c = 'z' then .ok (['Z'], rest)
    else if c = '+' ∨ c = '-' then do
      let (hour, rest) ← twoDigits 0 23 "time offset" rest
      let rest ← mark ':' "time offset" rest
      let (minute, rest) ← twoDigits 0 59 "time offset" rest
      let sign := if hour = ['0', '0'] ∧ minute = ['0', '0'] then '+' else c
      .ok (sign :: hour ++ ':' :: minute, rest)
    else .ok ([], s)

/-- Reads a date, a date with a time, or a time. -/
def dateTime (s : List Char) : Except Fault (Found (List Char)) :=
  match date s with
  | .ok (day, rest) =>
    match rest with
    | c :: after =>
      if c = 'T' ∨ c = 't' ∨ c = ' ' then
        match time "date-time" after with
        | .ok (clock, rest) => do
          let (zone, rest) ← offset rest
          .ok (day ++ 'T' :: clock ++ zone, rest)
        | .error fault => if fault.soft then .ok (day, rest) else .error fault
      else .ok (day, rest)
    | [] => .ok (day, rest)
  | .error fault => if fault.soft then time "time" s else .error fault

/-- The key under which a date stands in a tree. -/
def dateKey : String := "$__toml_private_datetime"

end CssBuild.Toml
