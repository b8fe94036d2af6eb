import CssBuild.Json.Basic
import CssBuild.Text.Split

/-!
# CssBuild.Json.Pointer

Pointers into a tree, and local references.

1. A pointer is a list of steps. In an object a step is a key, in an array an
   item's number in plain decimal.
2. In the text of a pointer a slash stands before each step; `~1` stands for
   a slash and `~0` for a tilde.
3. A reference `#/...` of an object is followed inside the same tree; where it
   leads nowhere the object stands for itself.
-/

namespace CssBuild.Json

/-- A step with every `~1` as a slash. -/
def unescapeSlashes : List Char → List Char
  | '~' :: '1' :: rest => '/' :: unescapeSlashes rest
  | c :: rest => c :: unescapeSlashes rest
  | [] => []

/-- A step with every `~0` as a tilde. -/
def unescapeTildes : List Char → List Char
  | '~' :: '0' :: rest => '~' :: unescapeTildes rest
  | c :: rest => c :: unescapeTildes rest
  | [] => []

/-- The steps that a text writes, a slash between them. -/
def pointerSteps (s : List Char) : List String :=
  (Text.split '/' s).map fun step => String.ofList (unescapeTildes (unescapeSlashes step))

/-- The number that a step writes in plain decimal, without zeros before it. -/
def itemNumber? (step : String) : Option Nat :=
  match step.toList with
  | [] => none
  | c :: rest =>
    if (c :: rest).any (fun d => !(decide ('0' ≤ d) && decide (d ≤ '9'))) then none
    else if c = '0' ∧ !rest.isEmpty then none
    else some (Nat.ofDigitChars 10 (c :: rest) 0)

/-- The value at the end of some steps. -/
def atPointer? (tree : Json) : (steps : List String) → Option Json
  | [] => some tree
  | step :: steps =>
    match tree with
    | .object entries => (Entries.find? entries step).bind fun found => atPointer? found steps
    | .array items =>
      (itemNumber? step).bind fun i => items[i]?.bind fun found => atPointer? found steps
    | _ => none

/-- What an object refers to inside a tree, or the object itself. -/
def resolve (root property : Json) : Json :=
  match (property.field? "$ref").bind text? with
  | none => property
  | some reference =>
    match Text.dropPrefix? ['#', '/'] reference.toList with
    | none => property
    | some pointer => (root.atPointer? (pointerSteps pointer)).getD property

end CssBuild.Json
