import CssBuild.Json.Basic
import CssBuild.Text.Split

/-!
# CssBuild.KeyPath

Dotted paths to values of a tree.

1. A path is the keys and item numbers on the way to a value, joined by dots.
   Keys may contain dots themselves, so a path can name several values.
2. `Json.repeated` lists the paths of keys that come again in their mapping.
3. `Json.lookup` follows a path; in a mapping the longest key wins.
-/

namespace CssBuild

namespace KeyPath

/-- The path of a key in the value at `parent`; the tree itself has the empty path. -/
def child (parent key : String) : String := if parent = "" then key else parent ++ "." ++ key

/-- An item's number as a key. -/
def index (i : Nat) : String := String.ofList (Nat.toDigits 10 i)

end KeyPath

namespace Json

/-! ## Repeated keys -/

mutual

/-- The paths of the keys that their mapping has already, in the order in which the entries end. -/
def repeated (path : String) : Json → List String
  | null | bool _ | number _ | string _ => []
  | array items => repeatedItems path 0 items
  | object entries => repeatedEntries path [] entries

/-- `repeated`, in items from some number on. -/
def repeatedItems (path : String) (i : Nat) : List Json → List String
  | [] => []
  | item :: rest =>
    repeated (KeyPath.child path (KeyPath.index i)) item ++ repeatedItems path (i + 1) rest

/-- `repeated`, in entries that come after some keys. -/
def repeatedEntries (path : String) (seen : List String) : List (String × Json) → List String
  | [] => []
  | (key, value) :: rest =>
    repeated (KeyPath.child path key) value ++
      (if key ∈ seen then [KeyPath.child path key] else []) ++
      repeatedEntries path (key :: seen) rest

end

/-! ## Looking a path up -/

/-- Why a path leads nowhere. -/
inductive LookupError where
  /-- A mapping without a matching key. -/
  | noKey (key parent : String)
  /-- A step into an array that is no number. -/
  | notIndex (step parent : String)
  /-- A number that no item of the array has. -/
  | outOfBounds (index : Nat) (parent : String)
  /-- A step into a value that is neither. -/
  | scalar (parent : String)
deriving DecidableEq

/-- The wording of a failed look-up. -/
def LookupError.message : LookupError → String
  | noKey key parent => "Key '" ++ key ++ "' not found at path '" ++ parent ++ "'"
  | notIndex step parent => "Invalid array index '" ++ step ++ "' at path '" ++ parent ++ "'"
  | outOfBounds index parent =>
    "Array index '" ++ KeyPath.index index ++ "' out of bounds at path '" ++ parent ++ "'"
  | scalar parent => "Cannot navigate into a scalar at path '" ++ parent ++ "'"

/-- The steps of a path put together again. -/
def joinSteps (steps : List String) : String := ".".intercalate steps

/-- The longest key of a mapping that the first `count` or fewer steps make, with its value and
the steps after it. -/
def longestKey? (entries : List (String × Json)) (steps : List String) :
    (count : Nat) → Option (Json × List String)
  | 0 => none
  | count + 1 =>
    match Entries.find? entries (joinSteps (steps.take (count + 1))) with
    | some found => some (found, steps.drop (count + 1))
    | none => longestKey? entries steps count

/-- The number that a step writes, if it is one: digits after an optional plus, below `2 ^ 64`. -/
def stepIndex? (step : String) : Option Nat :=
  let digits := match step.toList with
    | '+' :: rest => rest
    | other => other
  if digits.isEmpty || digits.any (fun c => !(decide ('0' ≤ c) && decide (c ≤ '9'))) then none
  else
    let value := Nat.ofDigitChars 10 digits 0
    if value < 0x10000000000000000 then some value else none

/-- Follows steps from a value; `done` are the steps already taken. Each value takes one unit of
fuel, and the number of steps is enough. -/
def follow : (fuel : Nat) → (done : List String) → (steps : List String) → Json →
    Except LookupError Json
  | _, _, [], tree => .ok tree
  | 0, _, _ :: _, tree => .ok tree
  | fuel + 1, done, step :: steps, tree =>
    match tree with
    | .object entries =>
      match longestKey? entries (step :: steps) (steps.length + 1) with
      | some (found, rest) =>
        follow fuel (done ++ (step :: steps).take (steps.length + 1 - rest.length)) rest found
      | none => .error (.noKey step (joinSteps done))
    | .array items =>
      match stepIndex? step with
      | none => .error (.notIndex step (joinSteps done))
      | some i =>
        match items[i]? with
        | some found => follow fuel (done ++ [step]) steps found
        | none => .error (.outOfBounds i (joinSteps done))
    | _ => .error (.scalar (joinSteps done))

/-- The value at a dotted path. -/
def lookup (tree : Json) (path : String) : Except LookupError Json :=
  let steps := (Text.split '.' path.toList).map String.ofList
  follow steps.length [] steps tree

end Json

end CssBuild
