import CssBuild.Config.Pattern
import CssBuild.Error
import CssBuild.Files.Walk
import CssBuild.KeyPath

/-!
# CssBuild.Content.Resolution

Which files the content patterns select.

1. Patterns with one root are taken together, and the directory that their
   root is below the base is walked once. The rest of a pattern is matched
   against paths below its root.
2. A file is listed by its path below the base, or by its whole path where it
   is not below the base. Files whose listed path an exclusion matches are
   left out.
3. The files are listed once each, in the order of their paths. Each inclusion
   has the number of files that it selects; one without any is worth a
   warning.
-/

namespace CssBuild

/-- Patterns that are matched below one directory. -/
structure Root where
  /-- The directory. -/
  path : Path
  /-- The numbers of the patterns, with what is matched below the directory. -/
  includes : List (Nat × Glob.Compiled)

/-- The files that patterns select. -/
structure Resolution where
  /-- The directory that the patterns are relative to. -/
  base : Path
  /-- The files. -/
  files : List Path
  /-- How many files each inclusion selects. -/
  counts : List (Pattern × Nat)
  /-- The inclusions without any file. -/
  warnings : List Warning

namespace Resolution

/-! ## Patterns -/

/-- What is to be matched: the roots in order, and the exclusions. -/
structure Plan where
  roots : List Root
  exclusions : List Glob.Compiled

/-- The roots with one more pattern, in the order of their paths. -/
def addInclude (path : Path) (number : Nat) (glob : Glob.Compiled) : List Root → List Root
  | [] => [⟨path, [(number, glob)]⟩]
  | root :: rest =>
    if path.same root.path then ⟨root.path, root.includes ++ [(number, glob)]⟩ :: rest
    else if path.lt root.path then ⟨path, [(number, glob)]⟩ :: root :: rest
    else root :: addInclude path number glob rest

/-- The directory that a pattern is matched below. -/
def rootPath (base : Path) (pattern : Pattern) : Path :=
  if pattern.root = "" then base else base.join ⟨pattern.root⟩

/-- A compiled glob, or the error of a pattern. -/
def compiled (number : Nat) (pattern : Pattern) (text : String)
    (result : Except Glob.Fault Glob.Compiled) : Except ConfigError Glob.Compiled :=
  result.mapError fun fault =>
    .invalidGlob (KeyPath.child "content.files" (KeyPath.index number)) pattern.text
      (fault.message text)

/-- The plan with patterns from some number on. -/
def plan (base : Path) (number : Nat) (found : Plan) : List Pattern → Except ConfigError Plan
  | [] => .ok found
  | pattern :: rest => do
    let whole ← compiled number pattern pattern.globText pattern.compile
    if pattern.isExclusion then
      plan base (number + 1) { found with exclusions := found.exclusions ++ [whole] } rest
    else do
      let tail ← compiled number pattern pattern.tail pattern.compileTail
      plan base (number + 1)
        { found with roots := addInclude (rootPath base pattern) number tail found.roots } rest

/-! ## Files -/

/-- A file that a pattern selects, as it is listed. -/
structure Hit where
  number : Nat
  listed : Path

/-- The text of some names below a directory. -/
def belowText (below : Below) : String := "/".intercalate below

/-- How a file below a root is listed. -/
def listedPath (base root : Path) (below : Below) : Path :=
  let whole := root.join ⟨belowText below⟩
  (whole.stripPrefix? base).getD whole

/-- The hits of the patterns of a root. -/
def rootHits (fs : FileSystem) (base : Path) (exclusions : List Glob.Compiled) (root : Root) :
    List Hit :=
  (fs.walk root.path).flatMap fun below =>
    let listed := listedPath base root.path below
    if exclusions.any fun glob => glob.matches listed.text then []
    else
      (root.includes.filter fun pattern => pattern.2.matches (belowText below)).map
        fun pattern => ⟨pattern.1, listed⟩

/-- Paths in order with one more, unless it is among them. -/
def addFile (path : Path) : List Path → List Path
  | [] => [path]
  | other :: rest =>
    if path.same other then other :: rest
    else if path.lt other then path :: other :: rest
    else other :: addFile path rest

/-- The paths of hits, in order and once each. -/
def listedFiles (hits : List Hit) : List Path :=
  hits.foldl (fun files hit => addFile hit.listed files) []

/-- The inclusions from some number on, with their number of hits. -/
def countsFrom (hits : List Hit) (number : Nat) : List Pattern → List (Pattern × Nat)
  | [] => []
  | pattern :: rest =>
    if pattern.isExclusion then countsFrom hits (number + 1) rest
    else
      (pattern, (hits.filter fun hit => hit.number == number).length) ::
        countsFrom hits (number + 1) rest

/-- The warnings of inclusions without files. -/
def unmatched (counts : List (Pattern × Nat)) : List Warning :=
  (counts.filter fun entry => entry.2 == 0).map fun entry => .unmatchedPattern entry.1.text

end Resolution

/-- The files that patterns select from a base directory. -/
def resolveContent (fs : FileSystem) (base : Path) (patterns : List Pattern) :
    Except ConfigError Resolution :=
  if !fs.isDirectory base then .error (.io base "not a directory")
  else do
    let plan ← Resolution.plan base 0 ⟨[], []⟩ patterns
    let hits := plan.roots.flatMap (Resolution.rootHits fs base plan.exclusions)
    let counts := Resolution.countsFrom hits 0 patterns
    .ok ⟨base, Resolution.listedFiles hits, counts, Resolution.unmatched counts⟩

end CssBuild
