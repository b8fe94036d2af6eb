import CssBuild.Files.Tree
import CssBuild.Glob.Matching
import CssBuild.Glob.Reader
import CssBuild.Text.Blank
import CssBuild.Text.Split

/-!
# CssBuild.Files.Ignore

Ignore files: which files a walk leaves out.

1. A rule is a glob for what to ignore, or for what to keep if `!` stands
   before it. A slash at its end restricts it to directories, a slash before
   or in it ties it to the directory of its file.
2. In a file the last rule that fits counts.
3. Three files of a directory hold rules: `.ignore`, `.gitignore` and
   `.git/info/exclude`. The rules of the first kind of file in any directory
   come before those of the second, and those before the third; for one kind
   the nearest directory with a rule that fits counts.
4. An ignore file is opened by a path, that of its directory with its names
   behind it. One whose path is too long counts as not there.
5. Without a rule that fits, hidden files, whose names start with a dot, are
   ignored.
-/

namespace CssBuild

/-- A line of an ignore file. -/
structure IgnoreRule where
  /-- What it fits, relative to the directory of the file. -/
  glob : Glob.Compiled
  /-- Whether it keeps what it fits. -/
  keeps : Bool
  /-- Whether it fits directories only. -/
  directoriesOnly : Bool

/-- What the rules say about something. -/
inductive Verdict where
  /-- It is left out. -/
  | ignore
  /-- It is kept. -/
  | keep
deriving DecidableEq

namespace IgnoreRule

/-! ## Reading rules -/

/-- A line without the white space at its end, which a backslash keeps. -/
def trimLine (line : List Char) : List Char :=
  match line.reverse with
  | ' ' :: '\\' :: _ => line
  | _ => Text.trimEnd line

/-- The marks before the glob of a line: whether it keeps, whether it is tied, and the glob. -/
def splitMarks (line : List Char) : Bool × Bool × List Char :=
  match line with
  | '\\' :: '!' :: rest => (false, false, '!' :: rest)
  | '\\' :: '#' :: rest => (false, false, '#' :: rest)
  | '!' :: '/' :: rest => (true, true, rest)
  | '!' :: rest => (true, false, rest)
  | '/' :: rest => (false, true, rest)
  | rest => (false, false, rest)

/-- The slash at the end of a glob, with the backslash that may stand before it: whether there is
one, and the glob without. -/
def splitSlash (glob : List Char) : Bool × List Char :=
  match glob.reverse with
  | '/' :: '\\' :: rest => (true, rest.reverse)
  | '/' :: rest => (true, rest.reverse)
  | _ => (false, glob)

/-- A glob that fits at any depth below. -/
def anywhere (glob : List Char) : List Char :=
  if ['*', '*', '/'].isPrefixOf glob || glob == ['*', '*'] then glob
  else '*' :: '*' :: '/' :: glob

/-- A glob for everything below a directory, as one that does not fit the directory itself. -/
def belowOnly (glob : List Char) : List Char :=
  if ['/', '*', '*'].isSuffixOf glob then glob ++ ['/', '*'] else glob

/-- The rule of a line, if it has one. -/
def ofLine? (line : List Char) : Option IgnoreRule :=
  if line.head? = some '#' then none
  else
    let trimmed := trimLine line
    if trimmed.isEmpty then none
    else
      let (keeps, tied, rest) := splitMarks trimmed
      let (directoriesOnly, plain) := splitSlash rest
      let glob := if tied || plain.contains '/' then plain else anywhere plain
      match Glob.compileChars true (belowOnly glob) with
      | .ok compiled => some ⟨compiled, keeps, directoriesOnly⟩
      | .error _ => none

/-- A line without the carriage return of its line break. -/
def dropReturn (line : List UInt8) : List UInt8 :=
  match line.reverse with
  | 13 :: rest => rest.reverse
  | other => other.reverse

/-- Lines of which all but the last end with a line break. -/
def closeLines : List (List UInt8) → List (List UInt8)
  | [] => []
  | [last] => [last]
  | line :: rest => dropReturn line :: closeLines rest

/-- The lines of some bytes as texts, up to the first that is none. -/
def textLines (bytes : List UInt8) : List (List Char) :=
  let lines := (closeLines (Text.split 10 bytes)).map fun line =>
    String.fromUTF8? ⟨line.toArray⟩
  (lines.takeWhile Option.isSome).map fun line => (line.getD "").toList

/-- The rules of an ignore file, whose text may start with byte order marks. -/
def ofBytes (bytes : ByteArray) : List IgnoreRule :=
  let lines := match textLines bytes.toList with
    | first :: rest => (first.dropWhile fun c => c = '\ufeff') :: rest
    | [] => []
  lines.filterMap ofLine?

/-! ## Applying rules -/

/-- Whether a rule fits a path below the directory of its file. -/
def fits (rule : IgnoreRule) (below : String) (directory : Bool) : Bool :=
  (directory || !rule.directoriesOnly) && rule.glob.matches below

/-- What rules say about a path: the last one that fits counts. -/
def verdict? (rules : List IgnoreRule) (below : String) (directory : Bool) : Option Verdict :=
  (rules.reverse.find? fun rule => rule.fits below directory).map fun rule =>
    if rule.keeps then .keep else .ignore

end IgnoreRule

/-- The rules of a directory, by kind of file. -/
structure IgnoreFiles where
  /-- The place of the directory. -/
  place : Place
  /-- The rules of each kind of file, the strongest kind first. -/
  kinds : List (List IgnoreRule)

namespace IgnoreFiles

/-- The places of ignore files in a directory, the strongest kind first. -/
def kindPlaces : List Place := [[".ignore"], [".gitignore"], [".git", "info", "exclude"]]

/-- The rules of one kind of file in a directory with a path. -/
def rulesOf (path : Path) (directory : Node) (kind : Place) : List IgnoreRule :=
  match directory.at? kind with
  | some (.file bytes) =>
    if FileSystem.isShort (path.enter kind) then IgnoreRule.ofBytes bytes else []
  | _ => []

/-- The rules of the ignore files of a directory with a path and a place. -/
def ofDirectory (path : Path) (place : Place) (directory : Node) : IgnoreFiles where
  place := place
  kinds := kindPlaces.map (rulesOf path directory)

/-- What the rules of a kind say about a place; the nearest directory comes first. -/
def kindVerdict? (kind : Nat) (place : Place) (directory : Bool) :
    List IgnoreFiles → Option Verdict
  | [] => none
  | files :: above =>
    let below := "/".intercalate (place.drop files.place.length)
    (IgnoreRule.verdict? (files.kinds[kind]?.getD []) below directory).or
      (kindVerdict? kind place directory above)

/-- What all rules say about a place. -/
def verdict? (nearest : List IgnoreFiles) (place : Place) (directory : Bool) : Option Verdict :=
  (List.range kindPlaces.length).findSome? fun kind =>
    kindVerdict? kind place directory nearest

/-- Whether a name is hidden. -/
def isHidden (name : String) : Bool := name.toList.head? == some '.'

/-- Whether something is left out of a walk. -/
def leavesOut (nearest : List IgnoreFiles) (place : Place) (name : String) (directory : Bool) :
    Bool :=
  match verdict? nearest place directory with
  | some .ignore => true
  | some .keep => false
  | none => isHidden name

end IgnoreFiles

end CssBuild
