import CssBuild.Cli.Run

/-!
# CssBuild.Main

The program: it takes what a command can look at from the disk, carries the
command out, and writes back what it changed.

1. The part of the disk that a command sees are the directories above the
   paths that it names, with their ignore files; for a listing also
   everything below the directories that content patterns start from.
2. Links are not followed.
-/

namespace CssBuild.Main

open Cli

/-! ## Taking a part of the disk -/

/-- The names of the files whose contents a command may need. -/
def neededNames : List String := ".ignore" :: ".gitignore" :: "exclude" :: Config.fileNames

/-- The names of the entries of a directory; nothing where there is none. -/
def entryNames (path : String) : IO (List String) := do
  let here ← IO.currentDir
  try
    return (← (here / path).readDir).toList.map fun entry => entry.fileName
  catch _ => return []

/-- What is at a path, without following a link. -/
def kindAt? (path : String) : IO (Option IO.FS.FileType) := do
  let here ← IO.currentDir
  try
    return some (← (here / path).symlinkMetadata).type
  catch _ => return none

/-- The file at a path; one that cannot be read is empty. -/
def fileAt (path : String) : IO Node := do
  try
    return .file (← IO.FS.readBinFile path)
  catch _ => return .file ByteArray.empty

/-- The node at a path with everything below it; only files that may be needed have their
contents. -/
partial def nodeAt? (path name : String) : IO (Option Node) := do
  match ← kindAt? path with
  | some .dir =>
    let mut entries : List (String × Node) := []
    for entry in ← entryNames path do
      if let some node ← nodeAt? (path ++ "/" ++ entry) entry then
        entries := (entry, node) :: entries
    return some (.directory entries.reverse)
  | some .file =>
    if name ∈ neededNames then return some (← fileAt path)
    else return some (.file ByteArray.empty)
  | _ => return none

/-- A directory with nothing but its own ignore files and configurations. -/
def outlineAt (path : String) : IO Node := do
  let mut node : Node := .directory []
  for name in ".ignore" :: ".gitignore" :: Config.fileNames do
    if let some .file ← kindAt? (path ++ "/" ++ name) then
      node := node.put [name] (← fileAt (path ++ "/" ++ name))
  if let some .file ← kindAt? (path ++ "/.git/info/exclude") then
    let rules ← fileAt (path ++ "/.git/info/exclude")
    node := node.put [".git"] (.directory [("info", .directory [("exclude", rules)])])
  return node

/-- The file system with what is on the disk along a place, from some directory on. -/
def addAlong (fs : FileSystem) (above : Place) : (below : Place) → IO FileSystem
  | [] => return fs
  | name :: rest => do
    let place := above ++ [name]
    match ← kindAt? (Path.ofPlace place).text with
    | some .dir =>
      let known := (fs.root.at? place).isSome
      let added ← if known then pure fs else (fs.put place ·) <$> outlineAt (Path.ofPlace place).text
      addAlong added place rest
    | some .file => return fs.put place (← fileAt (Path.ofPlace place).text)
    | _ => return fs

/-- The place that the pieces of a path lead to. -/
def placeOf (start : Place) (pieces : List (List Char)) : Place :=
  pieces.foldl (fun place piece =>
    if piece = [] ∨ piece = ['.'] then place
    else if piece = ['.', '.'] then place.dropLast
    else place ++ [String.ofList piece]) start

/-- The file system with what is on the disk along a path. -/
def addPath (fs : FileSystem) (path : Path) : IO FileSystem :=
  (List.range path.pieces.length).foldlM (fun added n =>
    addAlong added [] (placeOf (fs.start path) (path.pieces.take (n + 1)))) fs

/-- The file system with everything that is on the disk below a path. -/
def addBelow (fs : FileSystem) (path : Path) : IO FileSystem := do
  let place := placeOf (fs.start path) path.pieces
  let along ← addPath fs path
  match ← nodeAt? (Path.ofPlace place).text "" with
  | some (.directory entries) => return along.put place (.directory entries)
  | _ => return along

/-- The root of the disk with the working directory. -/
def diskRoot : IO FileSystem := do
  let workdir := placeOf [] (Path.pieces ⟨(← IO.currentDir).toString⟩)
  addAlong ⟨← outlineAt "", workdir⟩ [] workdir

/-- The directories in which a command looks for the files of a configuration. -/
def searched (fs : FileSystem) (invocation : Invocation) : List Path :=
  match invocation.command with
  | .files location? =>
    match loadAt fs invocation.lenient location? with
    | .ok stored =>
      stored.base :: (stored.config.patterns.filter fun pattern => !pattern.isExclusion).map
        (Resolution.rootPath stored.base)
    | .error _ => []
  | _ => []

/-- The paths that a command names. -/
def named (invocation : Invocation) : List Path :=
  match invocation.command with
  | .check location? | .files location? | .get _ location? => location?.toList.map Path.mk
  | .convert input output => [⟨input⟩, ⟨output⟩]
  | .schema _ => []

/-- The part of the disk that a command sees. -/
def diskFor (invocation : Invocation) : IO FileSystem := do
  let root ← diskRoot
  let seen ← (named invocation).foldlM addPath root
  let deep ← (searched seen invocation).foldlM addBelow seen
  (named invocation).foldlM addPath deep

/-! ## Writing back -/

/-- Writes the file that a conversion made. -/
def writeBack (changed : FileSystem) (invocation : Invocation) : IO Unit := do
  if let .convert _ output := invocation.command then
    if let .ok bytes := changed.readBytes ⟨output⟩ then
      if let some directory := Config.directoryAbove? ⟨output⟩ then
        IO.FS.createDirAll directory.text
      IO.FS.writeBinFile output bytes

/-! ## The command line -/

/-- What the program tells about itself. -/
def usage : String :=
  "Validate, inspect and convert utility-CSS build configurations\n\n" ++
  "Commands:\n" ++
  "  check [PATH]             load a configuration and sum it up\n" ++
  "  files [PATH]             list the files that a configuration selects\n" ++
  "  get KEY [--config PATH]  print the value at a dotted key\n" ++
  "  convert INPUT OUTPUT     write a configuration in another format\n" ++
  "  schema [--markdown]      print the schema\n\n" ++
  "Options:\n" ++
  "  --lenient                warn about unknown keys instead of rejecting them\n"

/-- Ends the program with what a command left behind. -/
def finish (outcome : Outcome) : IO UInt32 := do
  IO.print outcome.output
  IO.eprint outcome.errors
  return outcome.code.toUInt32

end CssBuild.Main

open CssBuild CssBuild.Cli CssBuild.Main in
/-- Runs the program. -/
def main (arguments : List String) : IO UInt32 := do
  match readArguments arguments with
  | .error fault =>
    if fault = .help ∨ fault = .version then
      IO.print usage
      return 0
    else
      IO.eprint usage
      return 2
  | .ok invocation =>
    let disk ← diskFor invocation
    let (changed, result) := run disk invocation
    if let .ok _ := result then writeBack changed invocation
    finish (outcome result)
