import CssBuild.Docs.Property
import CssBuild.Text.Split
import Mathlib.Algebra.GroupWithZero.Nat
import Mathlib.Data.List.Forall2

/-!
# CssBuild.Proofs.Docs.Tables

What a reader of tables makes of a table of properties.

1. A reader takes a text apart into lines, where a character ends a line, and a
   line into cells, at the bars that no backslash stands before (`cells`). What
   ends a line besides the newline is left open (`LineEnds`).
2. The row of a property has five cells on one line exactly where no text in it
   has a bar that a reader takes for the end of a cell, or an end of a line
   (`isRow_tableRow`, `single_tableRow`). The name, the type, the description and
   the default are put into a row as they are.
3. So the lines below the head of a table are those of the properties, in the
   order of the schema, exactly where the texts of all properties are such
   (`table_wellFormed`). Several alternatives are written with bars between them,
   so that their row never has five cells (`inCell_alternatives`). Newlines are
   taken out of descriptions only (`single_descriptionOf`).
-/

namespace CssBuild.Docs

/-! ## Cells -/

/-- The pieces of a line between the bars that end a cell. A backslash takes the next character
along; `taken` says whether the first one is. -/
def cells (taken : Bool) : List Char → List (List Char)
  | [] => [[]]
  | c :: rest =>
    if c = '|' ∧ taken = false then [] :: cells false rest
    else (cells (c = '\\' && !taken) rest).modifyHead (c :: ·)

/-- The number of bars in a line that end a cell. -/
def bars (taken : Bool) : List Char → Nat
  | [] => 0
  | c :: rest =>
    if c = '|' ∧ taken = false then bars false rest + 1 else bars (c = '\\' && !taken) rest

theorem length_cells (taken : Bool) (s : List Char) : (cells taken s).length = bars taken s + 1 := by
  induction s generalizing taken with
  | nil => rfl
  | cons c s ih =>
    rw [cells, bars]
    split
    · rw [List.length_cons, ih]
    · rw [List.length_modifyHead, ih]

section Between

variable {c : Char} (hbar : c ≠ '|') (hbackslash : c ≠ '\\')

include hbar hbackslash

/-- A character that is neither a bar nor a backslash is like any other character, and nothing is
taken along after it. -/
theorem cells_cons (taken : Bool) (s : List Char) :
    cells taken (c :: s) = (cells false s).modifyHead (c :: ·) := by
  rw [cells, if_neg (fun h => hbar h.1), decide_eq_false hbackslash, Bool.false_and]

theorem bars_cons (taken : Bool) (s : List Char) : bars taken (c :: s) = bars false s := by
  rw [bars, if_neg (fun h => hbar h.1), decide_eq_false hbackslash, Bool.false_and]

theorem bars_append (taken : Bool) (s t : List Char) :
    bars taken (s ++ c :: t) = bars taken s + bars false t := by
  induction s generalizing taken with
  | nil => rw [List.nil_append, bars_cons hbar hbackslash, bars, Nat.zero_add]
  | cons d s ih =>
    rw [List.cons_append, bars, bars]
    split
    · rw [ih, Nat.add_right_comm]
    · rw [ih]

/-- A text without a bar that ends a cell stands in the first of the pieces. -/
theorem cells_append {taken : Bool} {s : List Char} (hs : bars taken s = 0) (t : List Char) :
    cells taken (s ++ c :: t) = (cells false t).modifyHead (s ++ c :: ·) := by
  induction s generalizing taken with
  | nil => exact cells_cons hbar hbackslash taken t
  | cons d s ih =>
    rw [bars] at hs
    split at hs
    · cases hs
    · next hd =>
      rw [List.cons_append, cells, if_neg hd, ih hs, List.modifyHead_modifyHead]
      rfl

end Between

theorem bars_of_not_mem {s : List Char} (h : '|' ∉ s) (taken : Bool) : bars taken s = 0 := by
  induction s generalizing taken with
  | nil => rfl
  | cons c s ih =>
    obtain ⟨hc, hs⟩ := not_or.1 (mt List.mem_cons.2 h)
    rw [bars, if_neg fun h => hc h.1.symm, ih hs]

/-! ## Rows -/

/-- The line that has some texts in its cells. -/
def lineOf (fields : List (List Char)) : List Char :=
  '|' :: fields.flatMap fun field => ' ' :: field ++ [' ', '|']

/-- Each cell has the bars of its text, and one at its end. -/
theorem bars_lineOf (fields : List (List Char)) :
    bars false (lineOf fields) = (fields.map fun field => bars false field + 1).sum + 1 := by
  rw [lineOf, bars, if_pos ⟨rfl, rfl⟩]
  congr 1
  induction fields with
  | nil => rfl
  | cons field fields ih =>
    rw [List.flatMap_cons, List.map_cons, List.sum_cons, List.append_assoc, List.cons_append,
      bars_cons (by decide) (by decide), List.cons_append, bars_append (by decide) (by decide),
      List.singleton_append, bars, if_pos ⟨rfl, rfl⟩, ih]
    omega

/-- Texts without bars that end a cell are found in the cells. -/
theorem cells_lineOf {fields : List (List Char)} (h : ∀ field ∈ fields, bars false field = 0) :
    cells false (lineOf fields) = [] :: fields.map (fun field => ' ' :: field ++ [' ']) ++ [[]] := by
  rw [lineOf, cells, if_pos ⟨rfl, rfl⟩, List.cons_append]
  congr 1
  induction fields with
  | nil => rfl
  | cons field fields ih =>
    obtain ⟨hfield, hfields⟩ := List.forall_mem_cons.1 h
    rw [List.flatMap_cons, List.append_assoc, List.cons_append,
      cells_cons (by decide) (by decide), List.cons_append,
      cells_append (by decide) (by decide) hfield, List.singleton_append, cells,
      if_pos ⟨rfl, rfl⟩, ih hfields]
    simp

/-- Whether a property is required, as it stands in a row. -/
def answer (required : Bool) : String := if required then "yes" else "no"

/-- The texts in the row of a property. -/
def rowFields (p : Property) : List (List Char) :=
  [(code p.name).toList, (code p.type).toList, (answer p.required).toList, p.description.toList,
    (code p.default).toList]

theorem toList_tableRow (p : Property) : (tableRow p).toList = lineOf (rowFields p) := by
  -- An equation of `tableRow` takes Lean long to find.
  delta tableRow
  simp [lineOf, rowFields, answer]

theorem bars_code (s : String) : bars false (code s).toList = bars false s.toList := by
  have hcode : (code s).toList = '\x60' :: (s.toList ++ ['\x60']) := by simp [code]
  rw [hcode, bars_cons (by decide) (by decide), bars_append (by decide) (by decide), bars,
    Nat.add_zero]

theorem bars_answer (required : Bool) : bars false (answer required).toList = 0 := by
  cases required <;> decide

/-- The row of a property with a name, of which it says whether it is required: nothing before the
first bar and after the last, and five cells between them. -/
def IsRow (name : String) (required : Bool) (line : List Char) : Prop :=
  ∃ type description default, cells false line =
    [[], (" " ++ code name ++ " ").toList, type, (" " ++ answer required ++ " ").toList,
      description, default, []]

/-- A row has five cells exactly where none of its texts has a bar that ends a cell. -/
theorem isRow_tableRow {p : Property} : IsRow p.name p.required (tableRow p).toList ↔
    bars false p.name.toList = 0 ∧ bars false p.type.toList = 0 ∧
      bars false p.description.toList = 0 ∧ bars false p.default.toList = 0 := by
  rw [toList_tableRow]
  constructor
  · rintro ⟨type, description, default, hcells⟩
    have hlength := congrArg List.length hcells
    rw [length_cells, bars_lineOf] at hlength
    simp only [rowFields, List.map_cons, List.map_nil, List.sum_cons, List.sum_nil, bars_code,
      bars_answer, List.length_cons, List.length_nil] at hlength
    omega
  · rintro ⟨hname, htype, hdescription, hdefault⟩
    have hfields : ∀ field ∈ rowFields p, bars false field = 0 := by
      simp only [rowFields, List.forall_mem_cons, bars_code, bars_answer]
      exact ⟨hname, htype, trivial, hdescription, hdefault, fun _ h => absurd h List.not_mem_nil⟩
    refine ⟨(" " ++ code p.type ++ " ").toList, (" " ++ p.description ++ " ").toList,
      (" " ++ code p.default ++ " ").toList, ?_⟩
    rw [cells_lineOf hfields]
    simp [rowFields]

/-! ## Lines -/

/-- The characters that rows are made of besides the texts of properties. -/
def rowMarks : List Char := ['|', ' ', '\x60', 'y', 'e', 's', 'n', 'o']

/-- What ends a line: the newline does, and no character that every row is made of. -/
structure LineEnds where
  ends : Char → Bool
  newline : ends '\n' = true
  others : ∀ c ∈ rowMarks, ends c = false

namespace LineEnds

/-- Lines that end with newlines only. -/
def newlines : LineEnds := ⟨(· == '\n'), rfl, by decide⟩

/-- Lines that end with newlines and carriage returns. -/
def returns : LineEnds := ⟨fun c => c == '\n' || c == '\r', rfl, by decide⟩

variable (l : LineEnds)

/-- The lines of a text. -/
def lines (s : List Char) : List (List Char) := s.splitOnP l.ends

/-- A text in which nothing ends a line. -/
def Single (s : List Char) : Prop := ∀ c ∈ s, l.ends c = false

/-- A text that leaves a cell as it is: nothing in it ends the cell or the line. -/
def InCell (s : String) : Prop := bars false s.toList = 0 ∧ l.Single s.toList

instance (s : List Char) : Decidable (l.Single s) :=
  inferInstanceAs (Decidable (∀ c ∈ s, l.ends c = false))

instance (s : String) : Decidable (l.InCell s) := inferInstanceAs (Decidable (_ ∧ _))

variable {l}

theorem lines_ne_nil (s : List Char) : l.lines s ≠ [] := List.splitOnP_ne_nil _ _

theorem lines_eq_singleton {s : List Char} (h : l.Single s) : l.lines s = [s] :=
  List.splitOnP_eq_singleton h

/-- A text is one line exactly where nothing in it ends a line. -/
theorem length_lines_eq_one {s : List Char} : (l.lines s).length = 1 ↔ l.Single s := by
  constructor
  · intro hlength c hc
    by_contra hend
    obtain ⟨before, after, rfl⟩ := List.append_of_mem hc
    rw [lines, List.splitOnP_append_cons _ _ (eq_true_of_ne_false hend),
      List.length_append] at hlength
    have hbefore := List.length_pos_of_ne_nil (lines_ne_nil (l := l) before)
    have hafter := List.length_pos_of_ne_nil (lines_ne_nil (l := l) after)
    rw [lines] at hbefore hafter
    omega
  · exact fun h => by rw [lines_eq_singleton h, List.length_singleton]

theorem lines_join {pieces : List (List Char)} (hne : pieces ≠ []) :
    l.lines (Text.join '\n' pieces) = pieces.flatMap l.lines := by
  induction pieces with
  | nil => exact absurd rfl hne
  | cons piece rest ih =>
    cases rest with
    | nil => rw [Text.join, List.flatMap_singleton]
    | cons next more =>
      rw [Text.join_cons _ _ (List.cons_ne_nil _ _), List.flatMap_cons,
        ← ih (List.cons_ne_nil _ _)]
      exact List.splitOnP_append_cons _ _ l.newline

/-- No piece makes less than a line, so each makes one where there are as many lines as pieces. -/
theorem length_flatMap_lines (pieces : List (List Char)) :
    pieces.length ≤ (pieces.flatMap l.lines).length ∧
      ((pieces.flatMap l.lines).length = pieces.length →
        ∀ piece ∈ pieces, (l.lines piece).length = 1) := by
  induction pieces with
  | nil => exact ⟨Nat.le_refl 0, fun _ _ h => absurd h List.not_mem_nil⟩
  | cons piece rest ih =>
    obtain ⟨hle, hrest⟩ := ih
    have hpiece := List.length_pos_of_ne_nil (lines_ne_nil (l := l) piece)
    rw [List.flatMap_cons, List.length_append, List.length_cons]
    exact ⟨by omega, fun h => List.forall_mem_cons.2 ⟨by omega, hrest (by omega)⟩⟩

theorem flatMap_lines_eq_self {pieces : List (List Char)} (h : ∀ piece ∈ pieces, l.Single piece) :
    pieces.flatMap l.lines = pieces := by
  induction pieces with
  | nil => rfl
  | cons piece rest ih =>
    obtain ⟨hpiece, hrest⟩ := List.forall_mem_cons.1 h
    rw [List.flatMap_cons, lines_eq_singleton hpiece, ih hrest, List.singleton_append]

theorem single_lineOf {fields : List (List Char)} :
    l.Single (lineOf fields) ↔ ∀ field ∈ fields, l.Single field := by
  have hbar := l.others '|' (by decide)
  have hblank := l.others ' ' (by decide)
  simp only [Single, lineOf, List.forall_mem_cons, List.forall_mem_flatMap, List.forall_mem_append,
    hbar, hblank, List.not_mem_nil, false_imp_iff, implies_true, and_true, true_and]

theorem single_code {s : String} : l.Single (code s).toList ↔ l.Single s.toList := by
  have hmark := l.others '\x60' (by decide)
  simp [Single, code, hmark, or_imp, forall_and]

theorem single_answer (required : Bool) : l.Single (answer required).toList := by
  intro c hc
  refine l.others c ?_
  cases required
  · exact (by decide : ∀ c ∈ "no".toList, c ∈ rowMarks) c hc
  · exact (by decide : ∀ c ∈ "yes".toList, c ∈ rowMarks) c hc

/-- A row is one line exactly where none of its texts has an end of a line. -/
theorem single_tableRow {p : Property} : l.Single (tableRow p).toList ↔
    l.Single p.name.toList ∧ l.Single p.type.toList ∧ l.Single p.description.toList ∧
      l.Single p.default.toList := by
  rw [toList_tableRow, single_lineOf]
  simp [rowFields, single_code, single_answer]

end LineEnds

/-! ## What the texts of a property are -/

/-- Names of alternatives stand in a cell only where there is one name at most: there are bars
between them. -/
theorem inCell_alternatives {l : LineEnds} {names : List String} :
    l.InCell (alternatives names) ↔ names.length ≤ 1 ∧ ∀ name ∈ names, l.InCell name := by
  match names with
  | [] => simp [alternatives, LineEnds.InCell, LineEnds.Single, bars]
  | [name] => simp [alternatives]
  | name :: next :: more =>
    refine iff_of_false (fun h => ?_) fun h => absurd h.1 (by simp)
    have hbars : bars false (alternatives (name :: next :: more)).toList =
        bars false name.toList + (bars false (' ' :: (alternatives (next :: more)).toList) + 1) := by
      have hchars : (alternatives (name :: next :: more)).toList =
          name.toList ++ ' ' :: '|' :: ' ' :: (alternatives (next :: more)).toList := by
        simp [alternatives, String.toList_intercalate]
      rw [hchars, bars_append (by decide) (by decide), bars, if_pos ⟨rfl, rfl⟩]
    rw [h.1] at hbars
    omega

/-- A description has no newline. -/
theorem single_descriptionOf (schema : Json) :
    LineEnds.newlines.Single (descriptionOf schema).toList := by
  rw [descriptionOf]
  split
  · intro c hc
    rw [oneLine, String.toList_map] at hc
    obtain ⟨d, -, rfl⟩ := List.mem_map.1 hc
    split
    · rfl
    · next hd => exact beq_false_of_ne hd
  · unfold LineEnds.Single
    decide

/-! ## Tables -/

/-- The texts that a row shows of a property. -/
def Property.texts (p : Property) : List String := [p.name, p.type, p.description, p.default]

/-- The names of the properties that a schema defines, in order. -/
def propertyNames (schema : Json) : List String :=
  (((schema.field? "properties").bind Json.entries?).getD []).map Prod.fst

theorem map_name_properties (schema : Json) :
    (properties schema).map Property.name = propertyNames schema := by
  rw [properties, propertyNames, List.map_map]
  rfl

/-- The rows of some properties. -/
def rows (found : List Property) : List Char := Text.join '\n' (found.map fun p => (tableRow p).toList)

/-- The rows read as those of some properties exactly where their texts stand in cells. -/
theorem isRow_rows {l : LineEnds} {found : List Property} (hne : found ≠ []) :
    List.Forall₂ (fun p line => IsRow p.name p.required line) found (l.lines (rows found)) ↔
      ∀ p ∈ found, ∀ s ∈ p.texts, l.InCell s := by
  have htexts : ∀ p : Property, (∀ s ∈ p.texts, l.InCell s) ↔
      IsRow p.name p.required (tableRow p).toList ∧ l.Single (tableRow p).toList := by
    intro p
    rw [isRow_tableRow, LineEnds.single_tableRow]
    simp only [Property.texts, List.forall_mem_cons, LineEnds.InCell, List.not_mem_nil,
      false_imp_iff, implies_true, and_true]
    tauto
  let lines := found.map fun p => (tableRow p).toList
  have hself (h : ∀ p ∈ found, l.Single (tableRow p).toList) : lines.flatMap l.lines = lines :=
    LineEnds.flatMap_lines_eq_self (List.forall_mem_map.2 h)
  rw [rows, LineEnds.lines_join (by simpa using hne)]
  simp only [htexts]
  constructor
  · intro hrows
    have hlength : (lines.flatMap l.lines).length = lines.length := by
      rw [← hrows.length_eq, List.length_map]
    have hsingle : ∀ p ∈ found, l.Single (tableRow p).toList := by
      intro p hp
      exact LineEnds.length_lines_eq_one.1 ((LineEnds.length_flatMap_lines lines).2 hlength _
        (List.mem_map_of_mem hp))
    rw [hself hsingle, List.forall₂_map_right_iff] at hrows
    exact fun p hp => ⟨List.forall₂_same.1 hrows p hp, hsingle p hp⟩
  · intro h
    rw [hself fun p hp => (h p hp).2, List.forall₂_map_right_iff]
    exact List.forall₂_same.2 fun p hp => (h p hp).1

/-- What stands above the rows of a table: its title, its path and the two lines of its head. -/
def aboveRows (title path : String) : String :=
  "## " ++ title ++ "\n**Config path:** " ++ code path ++ "\n\n" ++ tableHead ++ "\n"

theorem table_of_ne_nil (title path : String) {found : List Property} (hne : found ≠ []) :
    table title path found = aboveRows title path ++ String.ofList (rows found) ++ "\n" := by
  have hrows : String.ofList (rows found) = "\n".intercalate (found.map tableRow) := by
    rw [← String.toList_inj, String.toList_ofList, rows, String.toList_intercalate,
      Text.join_eq_intercalate, List.map_map]
    rfl
  rw [table, if_neg (by simpa using hne), aboveRows, hrows]

theorem table_eq_empty {title path : String} {found : List Property} :
    table title path found = "" ↔ found = [] := by
  constructor
  · intro h
    by_contra hne
    rw [table_of_ne_nil title path hne, ← String.toList_inj] at h
    simp at h
  · rintro rfl
    rfl

/-- The lines of a text are the rows of the properties that a schema defines, in order. -/
def Tabulates (l : LineEnds) (schema : Json) (text : List Char) : Prop :=
  List.Forall₂ (fun name line => IsRow name (name ∈ requiredNames schema) line)
    (propertyNames schema) (l.lines text)

theorem tabulates_iff {l : LineEnds} {schema : Json} {text : List Char} :
    Tabulates l schema text ↔
      List.Forall₂ (fun p line => IsRow p.name p.required line) (properties schema)
        (l.lines text) := by
  rw [Tabulates, propertyNames, properties, List.forall₂_map_left_iff, List.forall₂_map_left_iff]

/-- A table is empty exactly where the schema defines no properties. Where it defines some and no
name has a bar or an end of a line, the lines below the head are one row for each property, in
order, exactly where every type, description and default stands in its cell. -/
theorem table_wellFormed (l : LineEnds) (schema : Json) (title path : String)
    (hnames : ∀ name ∈ propertyNames schema, '|' ∉ name.toList ∧ l.Single name.toList) :
    (table title path (properties schema) = "" ↔ propertyNames schema = []) ∧
    (propertyNames schema ≠ [] → ∃ below : List Char,
      table title path (properties schema) = aboveRows title path ++ String.ofList below ++ "\n" ∧
      (Tabulates l schema below ↔ ∀ p ∈ properties schema,
        l.InCell p.type ∧ l.InCell p.description ∧ l.InCell p.default)) := by
  rw [← map_name_properties] at hnames ⊢
  rw [List.forall_mem_map] at hnames
  refine ⟨by rw [table_eq_empty, List.map_eq_nil_iff], fun hne => ?_⟩
  have hdefined : properties schema ≠ [] := by simpa using hne
  refine ⟨rows (properties schema), table_of_ne_nil title path hdefined, ?_⟩
  rw [tabulates_iff, isRow_rows hdefined]
  refine forall₂_congr fun p hp => ?_
  have hname : l.InCell p.name := ⟨bars_of_not_mem (hnames p hp).1 false, (hnames p hp).2⟩
  simp [Property.texts, hname]

/-- A property that is one of two constants has no row, and the same property with a type of one
name has one. -/
theorem table_wellFormed_alternatives :
    let schema (property : Json) : Json := .object [("properties", .object [("a", property)]),
      ("required", .strings ["a"])]
    let choice : Json := schema (.single "oneOf" (.array
      [.single "const" (.string "media"), .single "const" (.string "class")]))
    let plain : Json := schema (.object [("type", .string "string"), ("default", .string "b c")])
    (∃ below, table "T" "p" (properties choice) =
      aboveRows "T" "p" ++ String.ofList below ++ "\n" ∧ ¬Tabulates .newlines choice below) ∧
    (∃ below, table "T" "p" (properties plain) =
      aboveRows "T" "p" ++ String.ofList below ++ "\n" ∧ Tabulates .returns plain below) := by
  intro schema choice plain
  constructor
  · obtain ⟨-, htable⟩ := table_wellFormed .newlines choice "T" "p" (by decide)
    obtain ⟨below, htext, hbelow⟩ := htable (by decide)
    refine ⟨below, htext, fun h => ?_⟩
    have htype : (LineEnds.newlines).InCell (alternatives ["\"media\"", "\"class\""]) :=
      (hbelow.1 h _ (List.mem_singleton.2 rfl)).1
    exact absurd (inCell_alternatives.1 htype).1 (by decide)
  · obtain ⟨-, htable⟩ := table_wellFormed .returns plain "T" "p" (by decide)
    obtain ⟨below, htext, hbelow⟩ := htable (by decide)
    exact ⟨below, htext, hbelow.2 (by decide)⟩

end CssBuild.Docs
