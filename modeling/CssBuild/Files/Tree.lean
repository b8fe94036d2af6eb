import CssBuild.Files.Path
import CssBuild.OrderedMap

/-!
# CssBuild.Files.Tree

Files and directories as a value.

1. A node is a file with its bytes or a directory with its entries. A place is
   a list of names from the root; a file system has a working directory.
2. Paths are followed piece by piece, `..` leading to the directory above.
   Every piece, also an empty one at the end, needs a directory before it.
3. Reading and writing never change anything where they fail, except that the
   directories above one that cannot be made may have been made.
-/

namespace CssBuild

/-- A file or a directory. -/
inductive Node where
  /-- A file with its bytes. -/
  | file (bytes : ByteArray)
  /-- A directory with its entries. -/
  | directory (entries : List (String × Node))
deriving Inhabited

/-- Why the file system refuses. -/
inductive FileError where
  /-- Nothing is there. -/
  | notFound
  /-- Something is there already. -/
  | occupied
  /-- A file where a directory is needed. -/
  | notDirectory
  /-- A directory where a file is needed. -/
  | isDirectory
  /-- A name or a path that is too long. -/
  | nameTooLong
  /-- A path with a null character. -/
  | nullCharacter
  /-- Bytes that are no text. -/
  | invalidText
deriving DecidableEq

/-- The wording of a refusal. -/
def FileError.message : FileError → String
  | notFound => "No such file or directory (os error 2)"
  | occupied => "File exists (os error 17)"
  | notDirectory => "Not a directory (os error 20)"
  | isDirectory => "Is a directory (os error 21)"
  | nameTooLong => "File name too long (os error 36)"
  | nullCharacter => "file name contained an unexpected NUL byte"
  | invalidText => "stream did not contain valid UTF-8"

/-- A place: the names on the way from the root. -/
abbrev Place := List String

/-- The path from the root to a place. -/
def Path.ofPlace (place : Place) : Path := (Path.mk "/").enter place

namespace Node

/-- The node at a place below a node. -/
def at? : Node → Place → Option Node
  | node, [] => some node
  | .file _, _ :: _ => none
  | .directory entries, name :: rest =>
    match Entries.find? entries name with
    | some node => at? node rest
    | none => none

/-- The node with another node at a place whose directories exist. -/
def put : Node → Place → Node → Node
  | _, [], new => new
  | .file bytes, _ :: _, _ => .file bytes
  | .directory entries, [name], new => .directory (Entries.put entries name new)
  | .directory entries, name :: rest, new =>
    match Entries.find? entries name with
    | some node => .directory (Entries.put entries name (put node rest new))
    | none => .directory entries

/-- The node without what is at a place. -/
def erase : Node → Place → Node
  | node, [] => node
  | .file bytes, _ :: _ => .file bytes
  | .directory entries, [name] => .directory (entries.filter fun entry => entry.1 != name)
  | .directory entries, name :: rest =>
    match Entries.find? entries name with
    | some node => .directory (Entries.put entries name (erase node rest))
    | none => .directory entries

/-- Whether a node is a directory. -/
def isDirectory : Node → Bool
  | .directory _ => true
  | .file _ => false

end Node

/-- A tree of files and the directory that relative paths start from. -/
structure FileSystem where
  /-- The root directory. -/
  root : Node
  /-- The working directory. -/
  workdir : Place

namespace FileSystem

/-! ## Following paths -/

/-- The most bytes of a name. -/
def maxName : Nat := 255

/-- The most bytes of a path. -/
def maxPath : Nat := 4095

/-- Whether a path is short enough to be followed. -/
def isShort (path : Path) : Bool := decide (path.text.utf8ByteSize ≤ maxPath)

/-- The place that pieces lead to from another one. -/
def follow (root : Node) : Place → List (List Char) → Except FileError Place
  | place, [] => .ok place
  | place, piece :: rest =>
    match root.at? place with
    | none => .error .notFound
    | some (.file _) => .error .notDirectory
    | some (.directory entries) =>
      if piece = [] ∨ piece = ['.'] then follow root place rest
      else if piece = ['.', '.'] then follow root place.dropLast rest
      else
        let name := String.ofList piece
        if maxName < name.utf8ByteSize then .error .nameTooLong
        else if Entries.has entries name then follow root (place ++ [name]) rest
        else .error .notFound

/-- The place that a path starts from. -/
def start (fs : FileSystem) (path : Path) : Place := if path.isAbsolute then [] else fs.workdir

/-- What is wrong with the text of a path itself. -/
def badPath? (path : Path) : Option FileError :=
  if path.text.toList.contains '\x00' then some .nullCharacter
  else if path.text = "" then some .notFound
  else if maxPath < path.text.utf8ByteSize then some .nameTooLong
  else none

/-- The place and the node that a path leads to. -/
def find (fs : FileSystem) (path : Path) : Except FileError (Place × Node) :=
  match badPath? path with
  | some reason => .error reason
  | none => do
    let place ← follow fs.root (fs.start path) path.pieces
    match fs.root.at? place with
    | some node => .ok (place, node)
    | none => .error .notFound

/-- Whether a path leads to a file. -/
def isFile (fs : FileSystem) (path : Path) : Bool :=
  match fs.find path with
  | .ok (_, .file _) => true
  | _ => false

/-- Whether a path leads to a directory. -/
def isDirectory (fs : FileSystem) (path : Path) : Bool :=
  match fs.find path with
  | .ok (_, .directory _) => true
  | _ => false

/-! ## Reading -/

/-- The bytes of a file. -/
def readBytes (fs : FileSystem) (path : Path) : Except FileError ByteArray := do
  match ← fs.find path with
  | (_, .file bytes) => .ok bytes
  | (_, .directory _) => .error .isDirectory

/-- The text of a file. -/
def readText (fs : FileSystem) (path : Path) : Except FileError String := do
  let bytes ← fs.readBytes path
  match String.fromUTF8? bytes with
  | some text => .ok text
  | none => .error .invalidText

/-! ## Writing -/

/-- The pieces of a path without empty ones at its end. -/
def stepPieces (path : Path) : List (List Char) :=
  (path.pieces.reverse.dropWhile fun piece => piece = []).reverse

/-- The directory that a path's last piece is taken in, and that piece. -/
def lastStep (fs : FileSystem) (path : Path) :
    Except FileError (Place × List (String × Node) × List Char) :=
  match badPath? path with
  | some reason => .error reason
  | none => do
    let pieces := stepPieces path
    let place ← follow fs.root (fs.start path) pieces.dropLast
    match fs.root.at? place with
    | some (.directory entries) => .ok (place, entries, pieces.getLast?.getD [])
    | some (.file _) => .error .notDirectory
    | none => .error .notFound

/-- Whether a piece is a name. -/
def isName (piece : List Char) : Bool := piece != [] && piece != ['.'] && piece != ['.', '.']

/-- The tree with another node at a place. -/
def put (fs : FileSystem) (place : Place) (node : Node) : FileSystem :=
  { fs with root := fs.root.put place node }

/-- Writes a file, a new one or over the bytes of an old one. A slash at the end of the path asks
for a directory. -/
def writeBytes (fs : FileSystem) (path : Path) (bytes : ByteArray) :
    Except FileError FileSystem := do
  let (place, entries, piece) ← fs.lastStep path
  let name := String.ofList piece
  if !isName piece || path.text.toList.getLast? == some '/' then .error .isDirectory
  else if maxName < name.utf8ByteSize then .error .nameTooLong
  else match Entries.find? entries name with
    | some (.directory _) => .error .isDirectory
    | _ => .ok (fs.put (place ++ [name]) (.file bytes))

/-- Writes a text as a file. -/
def writeText (fs : FileSystem) (path : Path) (text : String) : Except FileError FileSystem :=
  fs.writeBytes path text.toUTF8

/-- Makes one directory. -/
def makeDirectory (fs : FileSystem) (path : Path) : Except FileError FileSystem := do
  let (place, entries, piece) ← fs.lastStep path
  let name := String.ofList piece
  if !isName piece then .error .occupied
  else if maxName < name.utf8ByteSize then .error .nameTooLong
  else if Entries.has entries name then .error .occupied
  else .ok (fs.put (place ++ [name]) (.directory []))

/-- Makes a directory and those above it; each path takes one unit of fuel. What was made before
a refusal stays. -/
def makeDirectories : (fuel : Nat) → FileSystem → Path → FileSystem × Option FileError
  | 0, fs, _ => (fs, none)
  | fuel + 1, fs, path =>
    if path.text = "" then (fs, none)
    else match fs.makeDirectory path with
      | .ok made => (made, none)
      | .error .notFound =>
        match path.parent? with
        | none => (fs, some .notFound)
        | some parent =>
          match makeDirectories fuel fs parent with
          | (above, some reason) => (above, some reason)
          | (above, none) =>
            match above.makeDirectory path with
            | .ok made => (made, none)
            | .error reason =>
              if above.isDirectory path then (above, none) else (above, some reason)
      | .error reason => if fs.isDirectory path then (fs, none) else (fs, some reason)

/-- Makes a directory and those above it that are not there yet. -/
def makeAll (fs : FileSystem) (path : Path) : FileSystem × Option FileError :=
  makeDirectories (path.text.length + 1) fs path

end FileSystem

end CssBuild
