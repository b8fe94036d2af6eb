import CssBuild.Proofs.Results
import CssBuild.Toml.Table

/-!
# CssBuild.Proofs.Toml.Tables

A table at a path, and the tables around it.

1. `Reaches path inner whole wrap` says that `inner` is the table at a path of
   `whole`, and that `wrap` gives the whole with another table in its place.
   Where no table is, there is one that was only made on the way.
2. A change of the table at a path is a change in its place
   (`update_of_reaches`), and the path then leads to the changed table
   (`Reaches.set`).
3. A table that a header has made, or that has entries, is really there, so
   what surrounds it is known from it (`Reaches.whole_eq`).
-/

namespace CssBuild

namespace Entries

variable {α : Type} {entries : Entries α} {key : String}

theorem put_put (a b : α) : put (put entries key a) key b = put entries key b := by
  induction entries with
  | nil => simp [put]
  | cons entry rest ih =>
    obtain ⟨k, v⟩ := entry
    by_cases h : k = key
    · simp [put, h]
    · simp [put, h, ih]

theorem put_of_find? {value : α} (h : find? entries key = some value) :
    put entries key value = entries := by
  induction entries with
  | nil => cases h
  | cons entry rest ih =>
    obtain ⟨k, v⟩ := entry
    rw [find?] at h
    by_cases hk : k = key
    · rw [if_pos hk] at h
      rw [put, if_pos hk, Option.some.inj h]
    · rw [if_neg hk] at h
      rw [put, if_neg hk, ih h]

end Entries

namespace Toml

namespace Table

/-! ## Keys of a table -/

section Keys

variable {table : Table} {key : String}

theorem get?_put (table : Table) (key : String) (item : Item) :
    (table.put key item).get? key = some item := Entries.find?_put_self _ _ _

theorem put_put (table : Table) (key : String) (a b : Item) :
    (table.put key a).put key b = table.put key b := by
  simp only [put, implicit, dotted, entries, Entries.put_put]

theorem put_of_get? {item : Item} (h : table.get? key = some item) : table.put key item = table := by
  obtain ⟨implicit, dotted, entries⟩ := table
  rw [put, Entries.put_of_find? h]
  rfl

theorem get?_eq_none (h : key ∉ Entries.keys table.entries) : table.get? key = none :=
  Entries.find?_eq_none_iff.2 h

/-- The table with further entries at its end. -/
def add (table : Table) (items : List (String × Item)) : Table :=
  .mk table.implicit table.dotted (table.entries ++ items)

@[simp] theorem entries_add (table : Table) (items : List (String × Item)) :
    (table.add items).entries = table.entries ++ items := rfl

@[simp] theorem add_nil (table : Table) : table.add [] = table := by
  cases table
  simp [add, implicit, dotted, entries]

theorem add_add (table : Table) (items more : List (String × Item)) :
    (table.add items).add more = table.add (items ++ more) := by
  simp [add, implicit, dotted, entries]

theorem put_of_not_mem (h : key ∉ Entries.keys table.entries) (item : Item) :
    table.put key item = table.add [(key, item)] := by
  rw [put, Entries.put_of_not_mem h, add]

/-! ## Additions to a table -/

/-- An entry is added to a table that does not have its key, at the end. -/
theorem addEntry_ok (h : key ∉ Entries.keys table.entries) (hdotted : table.dotted = false)
    (whole : Option (List String)) (item : Item) :
    addEntry false whole key item table = .ok (table.add [(key, item)]) := by
  have hhas : ¬Entries.has table.entries key = true := fun hh => h (Entries.has_iff.1 hh)
  rw [addEntry, if_neg (by simp [hdotted]), if_neg hhas, put_of_not_mem h]

theorem addTable_ok (h : key ∉ Entries.keys table.entries) (path : List String) :
    addTable path key table = .ok (table.put key (.table empty)) := by
  simp only [addTable, get?_eq_none h]

theorem addElement_first (h : key ∉ Entries.keys table.entries) (path : List String) :
    addElement path key table = .ok (table.put key (.tables [] empty)) := by
  simp only [addElement, get?_eq_none h]

theorem addElement_next (table : Table) (key : String) (before : List Table) (last : Table)
    (path : List String) :
    addElement path key (table.put key (.tables before last)) =
      .ok (table.put key (.tables (before ++ [last]) empty)) := by
  simp only [addElement, get?_put, put_put]

end Keys

/-! ## Trees of tables -/

theorem treesOfEntries_append (items more : List (String × Item)) :
    treesOfEntries (items ++ more) = treesOfEntries items ++ treesOfEntries more := by
  induction items with
  | nil => rfl
  | cons item rest ih => rw [List.cons_append, treesOfEntries, treesOfEntries, ih, List.cons_append]

theorem tree_add (table : Table) (items : List (String × Item)) :
    (table.add items).tree = .object (treesOfEntries table.entries ++ treesOfEntries items) := by
  rw [add, tree, treesOfEntries_append]

theorem treesOf_append (tables more : List Table) :
    treesOf (tables ++ more) = treesOf tables ++ treesOf more := by
  induction tables with
  | nil => rfl
  | cons table rest ih => rw [List.cons_append, treesOf, treesOf, ih, List.cons_append]

/-- A table that was only made on the way to another one. -/
def made : Table := .mk true false []

end Table

/-! ## The table at a path -/

/-- The table at a path of a whole table, and the whole with another table in its place. -/
inductive Reaches : (path : List String) → (inner whole : Table) → (Table → Table) → Prop where
  /-- The whole table. -/
  | here (table : Table) : Reaches [] table table id
  /-- There is no table yet. -/
  | absent {key : String} {path : List String} {inner whole : Table} {wrap : Table → Table} :
    whole.get? key = none → Reaches path inner .made wrap →
    Reaches (key :: path) inner whole fun table => whole.put key (.table (wrap table))
  /-- A table. -/
  | table {key : String} {path : List String} {inner next whole : Table} {wrap : Table → Table} :
    whole.get? key = some (.table next) → Reaches path inner next wrap →
    Reaches (key :: path) inner whole fun table => whole.put key (.table (wrap table))
  /-- The last table of an array. -/
  | last {key : String} {path : List String} {inner next whole : Table} {before : List Table}
    {wrap : Table → Table} :
    whole.get? key = some (.tables before next) → Reaches path inner next wrap →
    Reaches (key :: path) inner whole fun table => whole.put key (.tables before (wrap table))

section Reaches

variable {path : List String} {inner whole next : Table} {wrap : Table → Table}

/-- A change of the table at a path changes it in its place. -/
theorem update_of_reaches (h : Reaches path inner whole wrap) {change : Table → Except Cause Table}
    (hchange : change inner = .ok next) (taken : List String) :
    whole.update .header change taken path = .ok (wrap next) := by
  induction h generalizing taken with
  | here table =>
    rw [Table.update]
    exact hchange
  | absent hget _ ih =>
    have hinner := ih hchange
    rw [Table.update]
    simp only [hget]
    rw [show Table.mk true (Reach.header != .header) [] = .made from rfl, hinner, ok_bind]
  | table hget _ ih =>
    have hinner := ih hchange
    rw [Table.update]
    simp only [hget, ne_eq, not_true_eq_false, false_and, if_false, hinner, ok_bind]
  | last hget _ ih =>
    have hinner := ih hchange
    rw [Table.update]
    simp only [hget, hinner, ok_bind]

/-- The path leads to the table that was set there. -/
theorem Reaches.set (h : Reaches path inner whole wrap) (next : Table) :
    Reaches path next (wrap next) wrap := by
  induction h with
  | here table => exact .here next
  | @absent key path inner whole wrap hget _ ih =>
    have htable := Reaches.table (Table.get?_put whole key (.table (wrap next))) ih
    simpa only [Table.put_put] using htable
  | @table key path inner after whole wrap hget _ ih =>
    have htable := Reaches.table (Table.get?_put whole key (.table (wrap next))) ih
    simpa only [Table.put_put] using htable
  | @last key path inner after whole before wrap hget _ ih =>
    have hlast := Reaches.last (Table.get?_put whole key (.tables before (wrap next))) ih
    simpa only [Table.put_put] using hlast

/-- A path may go on from the table that it leads to. -/
theorem Reaches.append (h : Reaches path inner whole wrap) {more : List String} {deeper : Table}
    {wrapDeeper : Table → Table} (hmore : Reaches more deeper inner wrapDeeper) :
    Reaches (path ++ more) deeper whole fun table => wrap (wrapDeeper table) := by
  induction h with
  | here table => exact hmore
  | absent hget _ ih => exact .absent hget (ih hmore)
  | table hget _ ih => exact .table hget (ih hmore)
  | last hget _ ih => exact .last hget (ih hmore)

theorem Reaches.inner_made (h : Reaches path inner whole wrap) (hwhole : whole = .made) :
    inner = .made := by
  induction h with
  | here table => exact hwhole
  | absent _ _ ih => exact ih rfl
  | table hget _ _ =>
    rw [hwhole] at hget
    cases hget
  | last hget _ _ =>
    rw [hwhole] at hget
    cases hget

/-- What surrounds a table that is really there. -/
theorem Reaches.whole_eq (h : Reaches path inner whole wrap) (hinner : inner ≠ .made) :
    whole = wrap inner := by
  induction h with
  | here table => rfl
  | absent _ hmade _ => exact absurd (hmade.inner_made rfl) hinner
  | table hget _ ih =>
    dsimp only
    rw [← ih hinner, Table.put_of_get? hget]
  | last hget _ ih =>
    dsimp only
    rw [← ih hinner, Table.put_of_get? hget]

/-- From a table back to one that surrounds it. -/
theorem Reaches.outer {start table inner' : Table} {deeper : List String} {surround : Table → Table}
    (h : Reaches path inner start wrap)
    (hdeeper : Reaches deeper table whole fun t => wrap (surround t)) (htable : table ≠ .made)
    (hsurround : surround table = inner') : Reaches path inner' whole wrap := by
  rw [hdeeper.whole_eq htable, hsurround]
  exact h.set inner'

/-- Into a table of the table that a path leads to. -/
theorem Reaches.enter {key : String} {table : Table}
    (h : Reaches path (inner.put key (.table table)) whole wrap) :
    Reaches (path ++ [key]) table whole fun t => wrap (inner.put key (.table t)) := by
  have hlast := Reaches.table (Table.get?_put inner key (.table table)) (.here table)
  simpa only [Table.put_put, id] using h.append hlast

/-- Into the last table of an array of tables. -/
theorem Reaches.enterLast {key : String} {before : List Table} {table : Table}
    (h : Reaches path (inner.put key (.tables before table)) whole wrap) :
    Reaches (path ++ [key]) table whole fun t => wrap (inner.put key (.tables before t)) := by
  have hlast := Reaches.last (Table.get?_put inner key (.tables before table)) (.here table)
  simpa only [Table.put_put, id] using h.append hlast

/-- To a table that is not there yet. -/
theorem Reaches.enterAbsent {key : String} (h : Reaches path inner whole wrap)
    (hkey : key ∉ Entries.keys inner.entries) :
    Reaches (path ++ [key]) .made whole fun t => wrap (inner.put key (.table t)) :=
  h.append (.absent (Table.get?_eq_none hkey) (.here .made))

end Reaches

end Toml

end CssBuild
