import CssBuild.Decimal.Stepwise
import CssBuild.Json.Basic
import CssBuild.Json.Fault

/-!
# CssBuild.Json.Lexical

The leaves of JSON text: blanks, words, strings and numbers.

1. A reader takes what is unread and returns what it found together with what
   is then unread.
2. Strings are read after their opening quote. A `\u` escape of a high
   surrogate has to be followed by one of a low surrogate.
3. A numeral is its digits before and after the point and its exponent.
   Without point and exponent it is an integer where that fits, and a double
   otherwise; `-0` is the double `-0.0`. A double is found by either way of
   rounding.
-/

namespace CssBuild.Json

/-- What a reader found, and what is then unread. -/
abbrev Found (α : Type) : Type := α × List Char

/-- A fault found before `rest`. -/
def failAt {α : Type} (cause : Cause) (rest : List Char) : Except Fault α :=
  .error ⟨cause, rest, 0⟩

/-- A fault found by looking at the first byte of `rest`. -/
def failOn {α : Type} (cause : Cause) (rest : List Char) : Except Fault α :=
  .error ⟨cause, rest, 1⟩

/-! ## Blanks and words -/

/-- The four blanks of JSON. -/
def isBlank (c : Char) : Bool := c == ' ' || c == '\n' || c == '\t' || c == '\r'

/-- The text after its leading blanks. -/
def skipBlanks (s : List Char) : List Char := s.dropWhile isBlank

/-- Reads the letters of a word. -/
def word : (letters : List Char) → List Char → Except Fault (Found Unit)
  | [], s => .ok ((), s)
  | _ :: _, [] => failAt .endInValue []
  | letter :: letters, c :: s =>
    if c = letter then word letters s else failOn .expectedWord (c :: s)

/-! ## Strings -/

/-- The value of a hexadecimal digit. -/
def hexValue? (c : Char) : Option Nat :=
  if '0' ≤ c ∧ c ≤ '9' then some (c.toNat - '0'.toNat)
  else if 'a' ≤ c ∧ c ≤ 'f' then some (c.toNat - 'a'.toNat + 10)
  else if 'A' ≤ c ∧ c ≤ 'F' then some (c.toNat - 'A'.toNat + 10)
  else none

/-- The value of four hexadecimal digits at the start of a text. -/
def hexFour? : List Char → Option (Nat × List Char)
  | a :: b :: c :: d :: rest => do
    let a ← hexValue? a
    let b ← hexValue? b
    let c ← hexValue? c
    let d ← hexValue? d
    some (((a * 16 + b) * 16 + c) * 16 + d, rest)
  | _ => none

/-- Reads four hexadecimal digits. -/
def hexFour (s : List Char) : Except Fault (Found Nat) :=
  match hexFour? s with
  | some found => .ok found
  | none =>
    if Position.byteWidth s < 4 then .error ⟨.endInString, s, Position.byteWidth s⟩
    else .error ⟨.invalidEscape, s, 4⟩

/-- Whether a number is a high surrogate. -/
def isHigh (n : Nat) : Bool := 0xD800 ≤ n && n < 0xDC00

/-- Whether a number is a low surrogate. -/
def isLow (n : Nat) : Bool := 0xDC00 ≤ n && n < 0xE000

/-- The character that a pair of surrogates stands for. -/
def pairChar (high low : Nat) : Char :=
  Char.ofNat (0x10000 + (high - 0xD800) * 0x400 + (low - 0xDC00))

/-- Reads the second half of a pair of surrogates. -/
def lowHalf (high : Nat) : List Char → Except Fault (Found Char)
  | [] => failAt .endInString []
  | '\\' :: [] => failAt .endInString []
  | '\\' :: 'u' :: s => do
    let (low, rest) ← hexFour s
    if isLow low then .ok (pairChar high low, rest) else failAt .loneSurrogate rest
  | '\\' :: s => failOn .unpairedHigh s
  | s => failOn .unpairedHigh s

/-- Reads what follows `\u`. -/
def unicodeEscape (s : List Char) : Except Fault (Found Char) := do
  let (code, rest) ← hexFour s
  if isLow code then failAt .loneSurrogate rest
  else if isHigh code then lowHalf code rest
  else .ok (Char.ofNat code, rest)

/-- The character that a letter after a backslash stands for. -/
def escapeLetter? : Char → Option Char
  | '"' => some '"'
  | '\\' => some '\\'
  | '/' => some '/'
  | 'b' => some '\x08'
  | 'f' => some '\x0c'
  | 'n' => some '\n'
  | 'r' => some '\r'
  | 't' => some '\t'
  | _ => none

/-- Reads what follows a backslash. -/
def escape : List Char → Except Fault (Found Char)
  | [] => failAt .endInString []
  | c :: s =>
    if c = 'u' then unicodeEscape s
    else match escapeLetter? c with
      | some found => .ok (found, s)
      | none => failOn .invalidEscape (c :: s)

/-- Reads the characters of a string and its closing quote; each takes one unit of fuel. -/
def stringChars : (fuel : Nat) → List Char → Except Fault (Found (List Char))
  | 0, s => failAt .endInString s
  | _ + 1, [] => failAt .endInString []
  | fuel + 1, c :: s =>
    if c = '"' then .ok ([], s)
    else if c = '\\' then do
      let (found, rest) ← escape s
      let (more, rest) ← stringChars fuel rest
      .ok (found :: more, rest)
    else if c.toNat < 0x20 then failOn .controlCharacter (c :: s)
    else do
      let (more, rest) ← stringChars fuel s
      .ok (c :: more, rest)

/-- Reads a string whose opening quote has been read. -/
def stringBody (s : List Char) : Except Fault (Found String) := do
  let (chars, rest) ← stringChars (s.length + 1) s
  .ok (String.ofList chars, rest)

/-! ## Numbers -/

/-- Whether a character is a decimal digit. -/
def isDigit (c : Char) : Bool := '0' ≤ c && c ≤ '9'

/-- The number that some digits write. -/
def digitsValue (digits : List Char) : Nat := Nat.ofDigitChars 10 digits 0

/-- An unsigned numeral. -/
structure Numeral where
  /-- The digits before the point. -/
  whole : List Char
  /-- The digits after the point, if there is one. -/
  fraction : Option (List Char)
  /-- The exponent, if there is one. -/
  exponent : Option Int

/-- The double nearest to a numeral. -/
def Numeral.toDouble? (n : Numeral) (negative : Bool) : Option Double :=
  let fraction := n.fraction.getD []
  Double.ofDecimal? negative (digitsValue (n.whole ++ fraction))
    (n.exponent.getD 0 - fraction.length)

/-- The double that a numeral is rounded to step by step. -/
def Numeral.stepwise? (n : Numeral) (negative : Bool) : Option Double :=
  let fraction := n.fraction.getD []
  let whole := Double.takeDigits 0 n.whole
  let all := Double.takeDigits whole.1 fraction
  Double.scaled? negative all.1
    (n.exponent.getD 0 + whole.2.length - (fraction.length - all.2.length : Nat))

/-- The double that a numeral is rounded to. -/
def Numeral.rounded? (rounding : Rounding) (n : Numeral) (negative : Bool) : Option Double :=
  match rounding with
  | .nearest => n.toDouble? negative
  | .stepwise => n.stepwise? negative

/-- The number that a signed numeral stands for, if doubles are rounded in some way. -/
def Numeral.toNumber? (rounding : Rounding) (n : Numeral) (negative : Bool) : Option Number :=
  let magnitude := digitsValue n.whole
  if n.fraction.isNone ∧ n.exponent.isNone ∧ ¬(negative ∧ magnitude = 0) then
    match Number.ofInt? (if negative then -(magnitude : Int) else magnitude) with
    | some found => some found
    | none => (n.rounded? rounding negative).map .double
  else (n.rounded? rounding negative).map .double

/-- The first digit run: a zero, or digits that do not start with one. -/
def wholeDigits : List Char → Except Fault (Found (List Char))
  | [] => failAt .endInValue []
  | c :: s =>
    if c = '0' then
      match s with
      | d :: _ => if isDigit d then failOn .invalidNumber s else .ok (['0'], s)
      | [] => .ok (['0'], s)
    else if isDigit c then .ok (c :: s.takeWhile isDigit, s.dropWhile isDigit)
    else failOn .invalidNumber (c :: s)

/-- The digits after a point, if there is one. -/
def fractionDigits : List Char → Except Fault (Found (Option (List Char)))
  | '.' :: s =>
    match s with
    | [] => failAt .endInValue []
    | c :: _ =>
      if isDigit c then .ok (some (s.takeWhile isDigit), s.dropWhile isDigit)
      else failOn .invalidNumber s
  | s => .ok (none, s)

/-- The largest exponent that every numeral can have. -/
def exponentLimit : Nat := 2147483647

/-- Where the digits of an exponent pass the limit: what is unread after that digit. -/
def exponentOverflow? : (value : Nat) → List Char → Option (List Char)
  | _, [] => none
  | value, c :: s =>
    if isDigit c then
      let next := value * 10 + (c.toNat - '0'.toNat)
      if exponentLimit < next then some s else exponentOverflow? next s
    else none

/-- The exponent after `e` and its sign, for a numeral whose digits are all zero or not; only with
such digits or a minus sign can it pass the limit. -/
def exponentDigits (zero negative : Bool) : List Char → Except Fault (Found Int)
  | [] => failAt .endInValue []
  | c :: s =>
    if isDigit c then
      match if zero || negative then none else exponentOverflow? 0 (c :: s) with
      | some rest => failAt .numberOutOfRange rest
      | none =>
        let value := digitsValue (c :: s.takeWhile isDigit)
        .ok (if negative then -(value : Int) else value, s.dropWhile isDigit)
    else failOn .invalidNumber (c :: s)

/-- The exponent, if there is one. -/
def exponentPart (zero : Bool) : List Char → Except Fault (Found (Option Int))
  | [] => .ok (none, [])
  | c :: s =>
    if c = 'e' ∨ c = 'E' then do
      let (negative, unsigned) := match s with
        | '-' :: s => (true, s)
        | '+' :: s => (false, s)
        | s => (false, s)
      let (value, rest) ← exponentDigits zero negative unsigned
      .ok (some value, rest)
    else .ok (none, c :: s)

/-- Reads an unsigned numeral. -/
def numeral (s : List Char) : Except Fault (Found Numeral) := do
  let (whole, rest) ← wholeDigits s
  let (fraction, rest) ← fractionDigits rest
  let zero := digitsValue (whole ++ fraction.getD []) == 0
  let (exponent, rest) ← exponentPart zero rest
  .ok (⟨whole, fraction, exponent⟩, rest)

/-- Reads a number whose sign has been read. -/
def unsignedNumber (rounding : Rounding) (negative : Bool) (s : List Char) :
    Except Fault (Found Number) := do
  let (n, rest) ← numeral s
  match n.toNumber? rounding negative with
  | some found => .ok (found, rest)
  | none => failAt .numberOutOfRange rest

end CssBuild.Json
