import CssBuild.Glob.Reader
import CssBuild.Glob.Matching

/-!
# CssBuild.Config.Pattern

The content patterns of a configuration.

1. A pattern is a glob for files, relative to the configuration's directory;
   one that starts with `!` excludes files.
2. The glob is the text without that mark and without any `./` before it.
3. The directories before the first special character are the root of a
   pattern: only what is below it can match, and the rest of the glob is
   matched against paths below the root.
-/

namespace CssBuild

/-- A content pattern as written. -/
structure Pattern where
  /-- The text. -/
  text : String
deriving DecidableEq, Inhabited

namespace Pattern

/-- The text without any `./` it starts with. -/
def dropHere : List Char → List Char
  | '.' :: '/' :: rest => dropHere rest
  | s => s

/-- Whether the pattern excludes files. -/
def isExclusion (p : Pattern) : Bool := p.text.toList.head? == some '!'

/-- The characters of the glob. -/
def globChars (p : Pattern) : List Char :=
  match p.text.toList with
  | '!' :: rest => dropHere rest
  | s => dropHere s

/-- The text of the glob. -/
def globText (p : Pattern) : String := String.ofList p.globChars

/-- Whether a character has a meaning of its own in a glob, so that a root ends before it. -/
def isSpecial (c : Char) : Bool := c == '*' || c == '?' || c == '[' || c == '{'

/-- A text cut at its last slash, if it has one. -/
def cutLastSlash? (s : List Char) : Option (List Char × List Char) :=
  match s with
  | [] => none
  | c :: rest =>
    match cutLastSlash? rest with
    | some (before, after) => some (c :: before, after)
    | none => if c = '/' then some ([], rest) else none

/-- The root of a glob, and the glob below it. -/
def splitChars (s : List Char) : List Char × List Char :=
  let plain := s.takeWhile fun c => !isSpecial c
  match cutLastSlash? plain with
  | some ([], after) => (['/'], after ++ s.dropWhile fun c => !isSpecial c)
  | some (before, after) => (before, after ++ s.dropWhile fun c => !isSpecial c)
  | none => ([], s)

/-- The root of a pattern. -/
def root (p : Pattern) : String := String.ofList (splitChars p.globChars).1

/-- The glob below the root of a pattern. -/
def tail (p : Pattern) : String := String.ofList (splitChars p.globChars).2

/-- Compiles the whole glob. -/
def compile (p : Pattern) : Except Glob.Fault Glob.Compiled := Glob.compile p.globText

/-- Compiles the glob below the root. -/
def compileTail (p : Pattern) : Except Glob.Fault Glob.Compiled := Glob.compile p.tail

end Pattern

end CssBuild
