import CssBuild.OrderedMap

/-!
# CssBuild.Config.Fonts

Font tokens and their families.

1. A stack lists font families, most preferred first; it should end in a
   generic family, which every browser has.
2. A table gives tokens their stacks. The order in which tokens first came
   belongs to it, so tables that differ in it are different.
-/

namespace CssBuild

/-- Font families, most preferred first. -/
abbrev FontStack := List String

namespace FontStack

/-- The families that every browser has. -/
def genericFamilies : List String :=
  ["serif", "sans-serif", "monospace", "cursive", "fantasy", "system-ui", "ui-serif",
    "ui-sans-serif", "ui-monospace", "ui-rounded", "emoji", "math", "fangsong"]

/-- The last family of a stack, if it is a generic one. -/
def generic? (stack : FontStack) : Option String :=
  stack.getLast?.filter fun family => family ∈ genericFamilies

end FontStack

/-- Tokens with their stacks. -/
abbrev FontTable := OrderedMap FontStack

namespace FontTable

/-- Equality of tables, order included. -/
def same (a b : FontTable) : Bool := a.entries == b.entries

theorem same_iff (a b : FontTable) : same a b = true ↔ a.toList = b.toList := by
  simp [same, OrderedMap.toList]

end FontTable

end CssBuild
