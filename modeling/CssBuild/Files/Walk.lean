import CssBuild.Files.Ignore

/-!
# CssBuild.Files.Walk

The files below a directory.

1. A walk goes through a directory and everything in it, except what ignore
   files or a dot at the start of a name leave out, and what is below that.
2. The ignore files of the directories above count too. The directory itself
   is never left out.
3. What is below the directory is opened by the path that the walk starts with
   and the names behind it. A directory whose path is too long is not entered;
   files are found in the directories that hold them and not opened.
-/

namespace CssBuild

/-- The names on the way from the start of a walk to a file. -/
abbrev Below := List String

mutual

/-- The files of a node that is not left out, in a walk from a path; `nearest` are the ignore files
above the node. -/
def Node.walk (start : Path) (nearest : List IgnoreFiles) (place : Place) (below : Below) :
    Node → List Below
  | .file _ => [below]
  | .directory entries =>
    if FileSystem.isShort (start.enter below) then
      walkEntries start (.ofDirectory (start.enter below) place (.directory entries) :: nearest) place
        below entries
    else []

/-- The files of the entries of a directory. -/
def walkEntries (start : Path) (nearest : List IgnoreFiles) (place : Place) (below : Below) :
    List (String × Node) → List Below
  | [] => []
  | (name, node) :: rest =>
    (if IgnoreFiles.leavesOut nearest (place ++ [name]) name node.isDirectory then []
      else node.walk start nearest (place ++ [name]) (below ++ [name])) ++
      walkEntries start nearest place below rest

end

namespace FileSystem

/-- The ignore files of the directories above a place, the nearest first. They are opened from the
root, and none of them if the path from there to the place is too long. -/
def ignoreAbove (fs : FileSystem) (place : Place) : List IgnoreFiles :=
  if isShort (.ofPlace place) then
    (List.range place.length).reverse.map fun n =>
      .ofDirectory (.ofPlace (place.take n)) (place.take n)
        ((fs.root.at? (place.take n)).getD (.directory []))
  else []

/-- The files below a path, if it leads to a directory. -/
def walk (fs : FileSystem) (path : Path) : List Below :=
  match fs.find path with
  | .ok (place, .directory entries) =>
    Node.walk path (fs.ignoreAbove place) place [] (.directory entries)
  | _ => []

end FileSystem

end CssBuild
