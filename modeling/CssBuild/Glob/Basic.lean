/-!
# CssBuild.Glob.Basic

Globs: patterns for paths.

1. `?` stands for one byte other than `/`, `*` for any number of them.
2. `**` stands for any number of whole components where it is one itself: at
   the start of a branch, between two slashes, or at the end after a slash.
   Elsewhere it is two stars.
3. `[...]` is one byte of a class and `{...,...}` a choice of patterns.
4. A backslash takes the next character as it is.
-/

namespace CssBuild.Glob

/-- A part of a glob. -/
inductive Token where
  /-- A character itself. -/
  | literal (c : Char)
  /-- One byte other than the separator. -/
  | any
  /-- Any number of bytes other than the separator. -/
  | star
  /-- Components before the first one. -/
  | leading
  /-- Everything below a directory. -/
  | trailing
  /-- Components between two slashes. -/
  | between
  /-- One byte in some ranges, or outside of all of them. -/
  | oneOf (negated : Bool) (ranges : List (Char × Char))
  /-- One of some patterns. -/
  | choice (branches : List (List Token))
deriving Inhabited

/-- Why a text is no glob. -/
inductive Fault where
  /-- A class that does not end. -/
  | unclosedClass
  /-- A range of a class that ends before it starts. -/
  | invalidRange (low high : Char)
  /-- A closing brace without an opening one. -/
  | unopenedChoice
  /-- An opening brace without a closing one. -/
  | unclosedChoice
  /-- A backslash at the end. -/
  | danglingEscape
deriving DecidableEq

/-- The wording of a fault. -/
def Fault.reason : Fault → String
  | unclosedClass => "unclosed character class; missing ']'"
  | invalidRange low high =>
    "invalid range; '" ++ String.singleton low ++ "' > '" ++ String.singleton high ++ "'"
  | unopenedChoice =>
    "unopened alternate group; missing '\x7b' (maybe escape '\x7d' with '[\x7d]'?)"
  | unclosedChoice =>
    "unclosed alternate group; missing '\x7d' (maybe escape '\x7b' with '[\x7b]'?)"
  | danglingEscape => "dangling '\\'"

/-- The wording of a fault in a pattern. -/
def Fault.message (fault : Fault) (pattern : String) : String :=
  "error parsing glob '" ++ pattern ++ "': " ++ fault.reason

/-- A compiled glob. -/
structure Compiled where
  /-- Its parts, in order. -/
  tokens : List Token

end CssBuild.Glob
