/-!
# CssBuild.Config.Modes

The two choices of a configuration among names.

1. A choice has a canonical name, the one that is written, and lists every
   name that is read.
-/

namespace CssBuild

/-- When utilities are generated. -/
inductive Mode where
  /-- On demand, from the classes in use. -/
  | onDemand
deriving DecidableEq, Inhabited

namespace Mode

/-- Every name of a mode that is read. -/
def names : List String := ["jit", "just-in-time"]

/-- The name that is written. -/
def name : Mode → String
  | onDemand => "jit"

/-- The mode with a name. -/
def ofName? (name : String) : Option Mode := if name ∈ names then some onDemand else none

theorem ofName?_name (mode : Mode) : ofName? mode.name = some mode := by
  cases mode; decide

theorem ofName?_isSome_iff (name : String) : (ofName? name).isSome ↔ name ∈ names := by
  simp [ofName?]

end Mode

/-- What turns dark variants on. -/
inductive DarkMode where
  /-- The preference of the reader's system. -/
  | media
  /-- A class on a root element. -/
  | className
deriving DecidableEq, Inhabited

namespace DarkMode

/-- Every name of a dark mode that is read. -/
def names : List String := ["media", "class"]

/-- The name that is written. -/
def name : DarkMode → String
  | media => "media"
  | className => "class"

/-- The dark mode with a name. -/
def ofName? (name : String) : Option DarkMode :=
  if name = "media" then some media
  else if name = "class" then some className
  else none

theorem ofName?_name (darkMode : DarkMode) : ofName? darkMode.name = some darkMode := by
  cases darkMode <;> decide

theorem ofName?_isSome_iff (name : String) : (ofName? name).isSome ↔ name ∈ names := by
  simp only [ofName?, names]
  split
  · simp_all
  · split <;> simp_all

end DarkMode

end CssBuild
