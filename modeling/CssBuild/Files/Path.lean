import CssBuild.Text.Split

/-!
# CssBuild.Files.Path

Paths as texts, read component by component.

1. A path is a text. Its components are the pieces between slashes; empty
   pieces and pieces `.` are none, except for a `.` that starts the path, and
   a slash that starts the path is the root.
2. Paths are compared by their components, so two texts can be one path. The
   text decides what is printed and what globs are matched against.
3. Taking the parent or a prefix away leaves the text of what remains as it
   was written.
-/

namespace CssBuild

/-- One step of a path. -/
inductive Component where
  /-- The slash at the start. -/
  | root
  /-- A `.` at the start. -/
  | here
  /-- The directory above. -/
  | up
  /-- An entry of a directory. -/
  | name (text : List Char)
deriving DecidableEq

/-- A path as written. -/
structure Path where
  /-- The text. -/
  text : String
deriving DecidableEq, Inhabited

namespace Path

/-- The pieces of the text between slashes. -/
def pieces (p : Path) : List (List Char) := Text.split '/' p.text.toList

/-- Whether the path starts at the root. -/
def isAbsolute (p : Path) : Bool := p.text.toList.head? == some '/'

/-- The step that a piece names, if it names one. -/
def pieceComponent? (piece : List Char) : Option Component :=
  if piece = [] ∨ piece = ['.'] then none
  else if piece = ['.', '.'] then some .up
  else some (.name piece)

/-- The first piece of a path as a step. -/
def firstComponent? (absolute : Bool) (piece : List Char) : Option Component :=
  if absolute then some .root
  else if piece = ['.'] then some .here
  else pieceComponent? piece

/-- Each component with the pieces after it. -/
def locate (first : Bool) (absolute : Bool) : List (List Char) → List (Component × List (List Char))
  | [] => []
  | piece :: rest =>
    match if first then firstComponent? absolute piece else pieceComponent? piece with
    | some found => (found, rest) :: locate false absolute rest
    | none => locate false absolute rest

/-- The components with what follows each. -/
def located (p : Path) : List (Component × List (List Char)) := locate true p.isAbsolute p.pieces

/-- The components of a path. -/
def components (p : Path) : List Component := p.located.map Prod.fst

/-- The same path, whatever the texts. -/
def same (a b : Path) : Bool := a.components == b.components

/-! ## Order -/

/-- The rank of a component among the kinds. -/
def rank : Component → Nat
  | .root => 0
  | .here => 1
  | .up => 2
  | .name _ => 3

/-- The order of components: the root, `.`, `..`, then names in the order of their characters. -/
def componentLt : Component → Component → Bool
  | .name a, .name b => decide (a < b)
  | a, b => rank a < rank b

/-- The order of component lists. -/
def listLt : List Component → List Component → Bool
  | [], [] => false
  | [], _ :: _ => true
  | _ :: _, [] => false
  | a :: as, b :: bs => if a = b then listLt as bs else componentLt a b

/-- The order of paths: component by component. -/
def lt (a b : Path) : Bool := listLt a.components b.components

/-! ## Parts of a path -/

/-- The pieces without those at the end that name no step. -/
def trimEnd (pieces : List (List Char)) : List (List Char) :=
  (pieces.reverse.dropWhile fun piece => (pieceComponent? piece).isNone).reverse

/-- The pieces without those at the start that name no step. -/
def trimStart (pieces : List (List Char)) : List (List Char) :=
  pieces.dropWhile fun piece => (pieceComponent? piece).isNone

/-- The path that some pieces write. -/
def ofPieces (pieces : List (List Char)) : Path := ⟨String.ofList (Text.join '/' pieces)⟩

/-- The path without its last component: nothing for the root and for a path without components. -/
def parent? (p : Path) : Option Path :=
  let all := p.pieces
  match p.located.getLast? with
  | none => none
  | some (.root, _) => none
  | some (_, after) =>
    let kept := all.take (all.length - after.length - 1)
    if p.isAbsolute then
      match trimEnd (kept.drop 1) with
      | [] => some ⟨"/"⟩
      | body => some (ofPieces ([] :: body))
    else match kept with
      | [] => some ⟨""⟩
      | start :: body =>
        if start = ['.'] then some (ofPieces (start :: trimEnd body))
        else some (ofPieces (trimEnd (start :: body)))

/-- The last component, if it is a name. -/
def fileName? (p : Path) : Option (List Char) :=
  match p.components.getLast? with
  | some (.name text) => some text
  | _ => none

/-- The part of a file's name after its last dot, if something comes before that dot. -/
def extension? (p : Path) : Option (List Char) :=
  match p.fileName? with
  | none => none
  | some name =>
    let after := (name.reverse.takeWhile (· != '.')).reverse
    if name.length ≤ after.length + 1 then none else some after

/-- A path below another; an absolute path stands for itself. -/
def join (base below : Path) : Path :=
  if below.isAbsolute then below
  else if base.text = "" ∨ base.text.toList.getLast? = some '/' then ⟨base.text ++ below.text⟩
  else ⟨base.text ++ "/" ++ below.text⟩

/-- The path of what names lead to below a path. -/
def enter (path : Path) (names : List String) : Path :=
  names.foldl (fun path name => path.join ⟨name⟩) path

/-- Takes components off a located path; what is left are the pieces after the last one taken. -/
def dropComponents : (pieces : List (List Char)) → List (Component × List (List Char)) →
    List Component → Option (List (List Char))
  | pieces, _, [] => some pieces
  | _, [], _ :: _ => none
  | _, (c, after) :: rest, d :: ds => if c = d then dropComponents after rest ds else none

/-- The path below `base`, as it is written, if `base` is above it. -/
def stripPrefix? (p base : Path) : Option Path :=
  match base.components with
  | [] => some (if p.isAbsolute then p else ofPieces (trimEnd p.pieces))
  | steps =>
    match dropComponents p.pieces p.located steps with
    | none => none
    | some left => some (ofPieces (trimEnd (trimStart left)))

end Path

end CssBuild
