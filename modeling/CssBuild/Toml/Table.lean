import CssBuild.Json.Basic
import CssBuild.Toml.Fault

/-!
# CssBuild.Toml.Table

The tables of a document while it is read.

1. A key, dotted or not, adds an entry to the table of the last header; a
   header adds a table. Tables on the way that are not there yet are made.
2. No table is given twice. One that a longer header made on its way may get
   a header of its own once, and then comes last; one that dotted keys made
   may only be extended by dotted keys.
3. A header in double brackets adds a table to an array, and paths through
   that array lead to its last table.
-/

namespace CssBuild.Toml

/-- What a value of a key was written as. -/
inductive Kind where
  | string
  | integer
  | float
  | boolean
  | datetime
  | array
  | inlineTable
deriving DecidableEq

/-- The name of a kind of values. -/
def Kind.name : Kind → String
  | string => "string"
  | integer => "integer"
  | float => "float"
  | boolean => "boolean"
  | datetime => "datetime"
  | array => "array"
  | inlineTable => "inline table"

mutual

/-- What a key of a table holds. -/
inductive Item where
  /-- A value, complete as it was written. -/
  | value (kind : Kind) (tree : Json)
  /-- A table. -/
  | table (table : Table)
  /-- An array of tables, its last one apart. -/
  | tables (before : List Table) (last : Table)

/-- A table with its entries in order. -/
inductive Table where
  /-- A table: whether it was only made on the way, and whether dotted keys made it. -/
  | mk (implicit dotted : Bool) (entries : List (String × Item))

end

namespace Table

/-- Whether the table was only made on the way to another one. -/
def implicit : Table → Bool
  | mk implicit _ _ => implicit

/-- Whether dotted keys made the table. -/
def dotted : Table → Bool
  | mk _ dotted _ => dotted

/-- The entries, in order. -/
def entries : Table → Entries Item
  | mk _ _ entries => entries

/-- A table that has a header, without entries. -/
def empty : Table := mk false false []

/-- The item of a key. -/
def get? (table : Table) (key : String) : Option Item := table.entries.find? key

/-- Gives a key an item. -/
def put (table : Table) (key : String) (item : Item) : Table :=
  mk table.implicit table.dotted (table.entries.put key item)

/-- The table without a key. -/
def erase (table : Table) (key : String) : Table :=
  mk table.implicit table.dotted (table.entries.filter fun entry => entry.1 != key)

end Table

/-! ## The tree of a table -/

mutual

/-- The tree of what a key holds. -/
def Item.tree : Item → Json
  | .value _ tree => tree
  | .table table => table.tree
  | .tables before last => .array (treesOf before ++ [last.tree])

/-- The tree of a table. -/
def Table.tree : Table → Json
  | .mk _ _ entries => .object (treesOfEntries entries)

/-- The trees of several tables. -/
def treesOf : List Table → List Json
  | [] => []
  | table :: rest => table.tree :: treesOf rest

/-- The entries of a table with the trees of their items. -/
def treesOfEntries : List (String × Item) → List (String × Json)
  | [] => []
  | (key, item) :: rest => (key, item.tree) :: treesOfEntries rest

end

/-! ## Paths -/

/-- What a path to a table belongs to. -/
inductive Reach where
  /-- The header of a table. -/
  | header
  /-- A dotted key of a table that has a header. -/
  | dotted
  /-- A dotted key of an inline table. -/
  | inline
deriving DecidableEq

namespace Table

/-- Changes the table at a path, `taken` being the keys before it. Tables that are not there are
made. -/
def update (reach : Reach) (change : Table → Except Cause Table) :
    (taken path : List String) → Table → Except Cause Table
  | _, [], table => change table
  | taken, key :: path, table =>
    match table.get? key with
    | none => do
      let inner ← update reach change (taken ++ [key]) path (mk true (reach != .header) [])
      .ok (table.put key (.table inner))
    | some (.value kind _) =>
      if reach = .inline ∧ kind = .inlineTable then .error (.duplicate key none)
      else .error (.notTable (taken ++ [key]) kind.name)
    | some (.table inner) =>
      if reach ≠ .header ∧ !inner.implicit then .error (.duplicate key none)
      else do
        let inner ← update reach change (taken ++ [key]) path inner
        .ok (table.put key (.table inner))
    | some (.tables before last) => do
      let last ← update reach change (taken ++ [key]) path last
      .ok (table.put key (.tables before last))

/-- Adds an entry to a table that a key with or without dots has reached. A table of dotted keys
gets none without dots, and only such a table gets one with dots. -/
def addEntry (withDots : Bool) (whole : Option (List String)) (key : String) (item : Item)
    (table : Table) : Except Cause Table :=
  if table.dotted ≠ withDots then .error (.duplicate key none)
  else if table.entries.has key then .error (.duplicate key whole)
  else .ok (table.put key item)

/-- Adds the value of a key, the keys before its last dot being a path. `whole` names the table
in errors. -/
def addValue (reach : Reach) (whole : Option (List String)) (path : List String) (key : String)
    (item : Item) (table : Table) : Except Cause Table :=
  table.update reach (addEntry (!path.isEmpty) whole key item) [] path

/-- The last key of a header as it is named in errors. -/
def shownKey (key : String) : String := String.ofList (keyText key.toList)

/-- Adds the table of a header: a new one, or one made on the way earlier, which moves to the
end. -/
def addTable (path : List String) (key : String) (table : Table) : Except Cause Table :=
  match table.get? key with
  | none => .ok (table.put key (.table empty))
  | some (.table inner) =>
    if inner.implicit ∧ !inner.dotted then
      .ok ((table.erase key).put key (.table (mk false false inner.entries)))
    else .error (.duplicate (shownKey key) (some path))
  | some _ => .error (.duplicate (shownKey key) (some path))

/-- Adds a table to the array of a header in double brackets. -/
def addElement (path : List String) (key : String) (table : Table) : Except Cause Table :=
  match table.get? key with
  | none => .ok (table.put key (.tables [] empty))
  | some (.tables before last) => .ok (table.put key (.tables (before ++ [last]) empty))
  | some _ => .error (.duplicate (shownKey key) (some path))

end Table

/-! ## Inline tables -/

/-- The keys of a pair before its last dot, its last key and its value. -/
structure Pair where
  path : List String
  key : String
  item : Item

/-- The inline table of some pairs. -/
def inlineTable (pairs : List Pair) : Except Cause Table :=
  pairs.foldlM (fun table pair => table.addValue .inline none pair.path pair.key pair.item)
    Table.empty

end CssBuild.Toml
