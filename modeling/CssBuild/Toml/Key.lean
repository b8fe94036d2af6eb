/-!
# CssBuild.Toml.Key

How strings and keys are written in TOML.

1. A string without quotes, backslashes, control characters and newlines is
   written in double quotes. One that would need escapes there is written
   literally, in single quotes, where that is possible. Texts with newlines
   use the forms with three quotes.
2. Between double quotes backslashes and control characters are escaped, tabs
   always; between three of them two quotes may stand side by side.
3. A key of letters, digits, `_` and `-` is bare; every other key is a string
   of one line.
-/

namespace CssBuild.Toml

/-- Whether a character can stand in a bare key. -/
def isBareChar (c : Char) : Bool :=
  ('a' ≤ c && c ≤ 'z') || ('A' ≤ c && c ≤ 'Z') || ('0' ≤ c && c ≤ '9') || c == '_' || c == '-'

/-- Whether a key needs no quotes. -/
def isBare (key : List Char) : Bool := !key.isEmpty && key.all isBareChar

/-- Whether a character is a control character that no literal form can hold; the tab is none. -/
def isControl (c : Char) : Bool := (c.toNat < 0x20 && c != '\t') || c.toNat == 0x7F

/-- The upper case hexadecimal digit of a number below sixteen. -/
def upperHex (n : Nat) : Char := (Nat.digitChar n).toUpper

/-- A character other than the quote between double quotes; between three of them newlines may
stand. -/
def escapedChar (multiline : Bool) (c : Char) : List Char :=
  if c = '\x08' then ['\\', 'b']
  else if c = '\t' then ['\\', 't']
  else if c = '\n' then if multiline then ['\n'] else ['\\', 'n']
  else if c = '\x0c' then ['\\', 'f']
  else if c = '\r' then ['\\', 'r']
  else if c = '\\' then ['\\', '\\']
  else if isControl c then
    ['\\', 'u', '0', '0', upperHex (c.toNat / 16), upperHex (c.toNat % 16)]
  else [c]

/-- A text between double quotes, after `run` quotes that stand for themselves. -/
def basicText (multiline : Bool) (run : Nat) : List Char → List Char
  | [] => []
  | c :: rest =>
    if c = '"' then
      if multiline ∧ run < 2 then '"' :: basicText multiline (run + 1) rest
      else '\\' :: '"' :: basicText multiline 0 rest
    else escapedChar multiline c ++ basicText multiline 0 rest

/-- What decides how a text is written. -/
structure Features where
  /-- The longest run of single quotes. -/
  singleRun : Nat
  /-- The longest run of double quotes. -/
  doubleRun : Nat
  /-- Whether there is a backslash. -/
  backslash : Bool
  /-- Whether there is a control character other than the newline. -/
  control : Bool
  /-- Whether there is a newline. -/
  newline : Bool

/-- The longest run of a character, the one under way being `now` long. -/
def longestRun (q : Char) : (now : Nat) → List Char → Nat
  | now, [] => now
  | now, c :: rest => if c = q then longestRun q (now + 1) rest else max now (longestRun q 0 rest)

/-- The features of a text. -/
def features (s : List Char) : Features where
  singleRun := longestRun '\'' 0 s
  doubleRun := longestRun '"' 0 s
  backslash := s.contains '\\'
  control := s.any fun c => c != '\n' && isControl c
  newline := s.contains '\n'

/-- The text that starts a string of three quotes: a newline, if the string has one, is read
back as part of it only after another newline. -/
def openLines (f : Features) : List Char := if f.newline then ['\n'] else []

/-- A text in double quotes. -/
def basicForm (s : List Char) : List Char := '"' :: (basicText false 0 s ++ ['"'])

/-- A text in three double quotes. -/
def basicLinesForm (f : Features) (s : List Char) : List Char :=
  let quotes := ['"', '"', '"']
  quotes ++ openLines f ++ basicText true 0 s ++ quotes

/-- A text in single quotes. -/
def literalForm (s : List Char) : List Char := '\'' :: (s ++ ['\''])

/-- A text in three single quotes. -/
def literalLinesForm (f : Features) (s : List Char) : List Char :=
  let quotes := ['\'', '\'', '\'']
  quotes ++ openLines f ++ s ++ quotes

/-- A text as a string in a document. -/
def stringText (s : List Char) : List Char :=
  let f := features s
  if f.doubleRun = 0 ∧ !f.backslash ∧ !f.control ∧ !f.newline then basicForm s
  else if f.singleRun = 0 ∧ !f.control ∧ !f.newline then literalForm s
  else if f.doubleRun ≤ 2 ∧ !f.backslash ∧ !f.control then basicLinesForm f s
  else if f.singleRun ≤ 2 ∧ !f.control then literalLinesForm f s
  else if f.newline then basicLinesForm f s
  else basicForm s

/-- A key as it is written. -/
def keyText (key : List Char) : List Char :=
  let f := features key
  if isBare key then key
  else if f.doubleRun = 0 ∧ !f.backslash ∧ !f.control ∧ !f.newline then basicForm key
  else if f.singleRun = 0 ∧ !f.control ∧ !f.newline then literalForm key
  else basicForm key

end CssBuild.Toml
