import CssBuild.Proofs.Toml.Arrangement
import CssBuild.Proofs.Toml.Lines

/-!
# CssBuild.Proofs.Toml.Sections

The sections that are written in TOML are read as the tables that they stand
for.

1. The reader has come to a table at some path. Lines of entries extend that
   table (`reads_own`), and the sections of the values in it add tables to it.
2. `ValueRead` and `ElementRead` state that of one value, as an entry of a
   table and as an element of an array of tables. They hold of every value
   that can be written, by induction over trees (`values_read`).
3. So a document is read as its tree, arranged (`readTreeWithin_write`).
-/

namespace CssBuild.Toml

open Json (Distinct DistinctEntries depth depthItems depthEntries)

/-! ## Depth -/

theorem depth_le_depthEntries {entries : List (String × Json)} {entry : String × Json}
    (h : entry ∈ entries) : depth entry.2 ≤ depthEntries entries := by
  induction entries with
  | nil => cases h
  | cons first rest ih =>
    obtain ⟨key, value⟩ := first
    rw [depthEntries]
    obtain rfl | hrest := List.mem_cons.1 h
    · exact Nat.le_max_left _ _
    · exact Nat.le_trans (ih hrest) (Nat.le_max_right _ _)

/-! ## Entries within a line -/

/-- Lines of entries extend the table that the reader has come to. -/
theorem reads_own {limit : Nat} (hlimit : 0 < limit) {path : List String} {wrap : Table → Table}
    (own : List (String × Json))
    (hown : ∀ entry ∈ own, Writable entry.2 ∧ Distinct entry.2 ∧ depth entry.2 ≤ limit)
    {inner root : Table} (h : Reaches path inner root wrap) (hdotted : inner.dotted = false)
    (hkeys : (Entries.keys inner.entries ++ Entries.keys own).Nodup) :
    ∃ next, Reads limit ⟨root, path⟩ (own.flatMap entryLine) ⟨next, path⟩ ∧
      Reaches path (inner.add (valueItems own)) next wrap := by
  induction own generalizing inner root with
  | nil =>
    refine ⟨root, .refl _, ?_⟩
    rwa [valueItems, List.map_nil, Table.add_nil]
  | cons entry own ih =>
    obtain ⟨writable, distinct, hdepth⟩ := hown entry List.mem_cons_self
    have hnew : entry.1 ∉ Entries.keys inner.entries := by
      intro hmem
      exact (List.nodup_append.1 hkeys).2.2 _ hmem _ List.mem_cons_self rfl
    have hline := @keyLine_entryLine limit ⟨root, path⟩ inner wrap hlimit h hdotted entry hnew
      writable distinct hdepth
    have hkeys' : (Entries.keys (inner.add (valueItems [entry])).entries ++
        Entries.keys own).Nodup := by
      rw [Table.entries_add, Entries.keys_append, keys_valueItems, List.append_assoc]
      exact hkeys
    obtain ⟨next, hreads, hreach⟩ := ih (fun e he => hown e (List.mem_cons_of_mem _ he))
      (h.set (inner.add (valueItems [entry]))) hdotted hkeys'
    have hstart : ∃ c u, entryLine entry = c :: u ∧ c ∉ keyBreaks := by
      obtain ⟨c, u, htext, hc⟩ := keyText_eq_cons entry.1.toList
      exact ⟨c, _, by rw [entryLine, htext, List.cons_append], hc⟩
    refine ⟨next, ?_, ?_⟩
    · rw [List.flatMap_cons]
      exact (reads_keyLine hstart hline).trans hreads
    · rw [Table.add_add] at hreach
      exact hreach

/-! ## What reading a value does -/

/-- The sections of the entries of a table extend that table. -/
def SectionsRead (limit : Nat) (entries : List (String × Json)) : Prop :=
  ∀ (path : List String) (inner root : Table) (wrap : Table → Table) (last : List String),
    Reaches path inner root wrap → inner.dotted = false →
    (Entries.keys inner.entries ++ Entries.keys (tableEntries entries)).Nodup →
    path.length + depthEntries entries < limit →
    ∃ items after, treesOfEntries items = arrangedEntries entries ∧
      ReadsAll limit ⟨root, last⟩ (entrySections path entries) after ∧
      Reaches path (inner.add items) after.root wrap

/-- The sections of a value give a key of a table that value. -/
def ValueRead (limit : Nat) (value : Json) : Prop :=
  ∀ (path : List String) (key : String) (inner root : Table) (wrap : Table → Table)
    (last : List String),
    Reaches path inner root wrap → key ∉ Entries.keys inner.entries →
    path.length + depth value < limit →
    ∃ item after, item.tree = arranged value ∧
      ReadsAll limit ⟨root, last⟩ (valueSections (path ++ [key]) value) after ∧
      Reaches path (inner.put key item) after.root wrap

/-- The sections of a value add it to the array of tables of a key. -/
def ElementRead (limit : Nat) (value : Json) : Prop :=
  ∀ (path : List String) (key : String) (start inner root : Table) (before : List Table)
    (wrap : Table → Table) (last : List String),
    Reaches path start root wrap →
    Table.addElement path key start = .ok (inner.put key (.tables before .empty)) →
    path.length + depth value < limit →
    ∃ table after, table.tree = arranged value ∧
      ReadsAll limit ⟨root, last⟩ (sections (path ++ [key]) true value) after ∧
      Reaches path (inner.put key (.tables before table)) after.root wrap

/-! ## Entries -/

theorem sectionsRead_inline {limit : Nat} {entry : String × Json} {rest : List (String × Json)}
    (hinline : hasSection entry.2 = false) (hrest : SectionsRead limit rest) :
    SectionsRead limit (entry :: rest) := by
  intro path inner root wrap last h hdotted hkeys hdepth
  obtain ⟨key, value⟩ := entry
  have htables : tableEntries ((key, value) :: rest) = tableEntries rest := by
    simp [tableEntries, show hasSection value = false from hinline]
  rw [depthEntries] at hdepth
  rw [htables] at hkeys
  have hsections : entrySections path ((key, value) :: rest) = entrySections path rest := by
    rw [entrySections_eq_flatMap, htables, entrySections_eq_flatMap]
  rw [arrangedEntries_eq_map, htables, ← arrangedEntries_eq_map, hsections]
  exact hrest path inner root wrap last h hdotted hkeys (by omega)

theorem sectionsRead_cons {limit : Nat} {entry : String × Json} {rest : List (String × Json)}
    (hsection : hasSection entry.2 = true) (hvalue : ValueRead limit entry.2)
    (hrest : SectionsRead limit rest) : SectionsRead limit (entry :: rest) := by
  intro path inner root wrap last h hdotted hkeys hdepth
  obtain ⟨key, value⟩ := entry
  have htables : tableEntries ((key, value) :: rest) = (key, value) :: tableEntries rest := by
    simp [tableEntries, show hasSection value = true from hsection]
  rw [depthEntries] at hdepth
  rw [htables, Entries.keys_cons] at hkeys
  have hnew : key ∉ Entries.keys inner.entries := by
    intro hmem
    exact (List.nodup_append.1 hkeys).2.2 _ hmem _ List.mem_cons_self rfl
  obtain ⟨item, between, htree, hreads, hreach⟩ := hvalue path key inner root wrap last h hnew (by
    show path.length + depth value < limit
    omega)
  rw [Table.put_of_not_mem hnew] at hreach
  have hkeys' : (Entries.keys (inner.add [(key, item)]).entries ++
      Entries.keys (tableEntries rest)).Nodup := by
    simpa using hkeys
  obtain ⟨items, after, htrees, hmore, hreach'⟩ :=
    hrest path _ between.root wrap between.path hreach hdotted hkeys' (by omega)
  refine ⟨(key, item) :: items, after, ?_, ?_, ?_⟩
  · rw [treesOfEntries, htree, htrees, arrangedEntries, if_pos hsection]
  · rw [entrySections_eq_flatMap, htables, List.flatMap_cons, ← entrySections_eq_flatMap]
    exact hreads.append hmore
  · rw [Table.add_add] at hreach'
    exact hreach'

theorem sectionsRead_of_forall {limit : Nat} {entries : List (String × Json)}
    (h : ∀ entry ∈ entries, hasSection entry.2 = true → ValueRead limit entry.2) :
    SectionsRead limit entries := by
  induction entries with
  | nil =>
    intro path inner root wrap last hreach _ _ _
    refine ⟨[], ⟨root, last⟩, ?_, ?_, ?_⟩
    · rw [treesOfEntries, arrangedEntries]
    · rw [entrySections]
      exact .nil _
    · rwa [Table.add_nil]
  | cons entry rest ih =>
    have hrest := ih fun e he => h e (List.mem_cons_of_mem _ he)
    by_cases hsection : hasSection entry.2 = true
    · exact sectionsRead_cons hsection (h entry List.mem_cons_self hsection) hrest
    · exact sectionsRead_inline (Bool.not_eq_true _ ▸ hsection) hrest

/-! ## Tables -/

section Objects

variable {limit : Nat} {entries : List (String × Json)} (hsections : SectionsRead limit entries)
  (writable : Writable (.object entries)) (distinct : Distinct (.object entries))
include hsections writable distinct

/-- A table whose header has been read, with the lines of its entries and the sections of the
values in it. -/
theorem reads_body {path : List String} {root : Table} {wrap : Table → Table} {before : Progress}
    {header : List Char} (hheader : Reads limit before header ⟨root, path⟩)
    (h : Reaches path .empty root wrap) (hdepth : path.length + depthEntries entries < limit) :
    ∃ table after, table.tree = arranged (.object entries) ∧ table ≠ .made ∧
      ReadsAll limit before ((header ++ (ownEntries entries).flatMap entryLine) ::
        entrySections path entries) after ∧ Reaches path table after.root wrap := by
  rw [Distinct] at distinct
  rw [Writable, writableEntries_iff] at writable
  have hkeys := nodup_partitioned distinct.1
  have hown : ∀ entry ∈ ownEntries entries,
      Writable entry.2 ∧ Distinct entry.2 ∧ depth entry.2 ≤ limit := by
    intro entry hentry
    have hmem := (mem_ownEntries.1 hentry).1
    have hle := depth_le_depthEntries hmem
    exact ⟨writable entry hmem, Json.distinct_of_mem_entries distinct.2 hmem, by omega⟩
  obtain ⟨next, hlines, hreach⟩ := reads_own (Nat.zero_lt_of_lt hdepth) (ownEntries entries) hown h rfl
    (List.nodup_append.1 hkeys).1
  have hkeys' : (Entries.keys (Table.empty.add (valueItems (ownEntries entries))).entries ++
      Entries.keys (tableEntries entries)).Nodup := by
    rw [Table.entries_add, Entries.keys_append, keys_valueItems]
    exact hkeys
  obtain ⟨items, after, htrees, hmore, hreach'⟩ := hsections path _ next wrap path hreach rfl hkeys'
    hdepth
  refine ⟨_, after, ?_, ?_, .cons (hheader.trans hlines) hmore, hreach'⟩
  · rw [Table.tree_add, Table.entries_add, Table.treesOfEntries_append, treesOfEntries_valueItems,
      htrees, arranged]
    rfl
  · intro heq
    cases heq

theorem valueRead_object : ValueRead limit (.object entries) := by
  intro path key inner root wrap last h hkey hdepth
  rw [depth] at hdepth
  have hdeeper : (path ++ [key]).length + depthEntries entries < limit := by
    rw [List.length_append, List.length_singleton]
    omega
  rw [valueSections, sections]
  by_cases hown : ownEntries entries = [] ∧ entries ≠ []
  · obtain ⟨hown, hne⟩ := hown
    have hsection : ownSection (path ++ [key]) false entries = [] := by
      have hfilter : entries.filter (fun entry => !hasSection entry.2) = [] := hown
      rw [ownSection, hfilter]
      simp [hne]
    have hkeys : (Entries.keys Table.made.entries ++ Entries.keys (tableEntries entries)).Nodup := by
      rw [Distinct] at distinct
      exact (List.nodup_append.1 (nodup_partitioned distinct.1)).2.1
    obtain ⟨items, after, htrees, hreads, hreach⟩ := hsections (path ++ [key]) .made root _ last
      (h.enterAbsent hkey) rfl hkeys hdeeper
    have hmade : Table.made.add items ≠ .made := by
      intro heq
      have hitems : items = [] := by
        injection heq
      have hlength := (partitioned_perm entries).length_eq
      rw [hitems, treesOfEntries, arrangedEntries_eq_map] at htrees
      rw [partitioned, hown, List.map_eq_nil_iff.1 htrees.symm] at hlength
      exact hne (List.length_eq_zero_iff.1 hlength.symm)
    refine ⟨.table (Table.made.add items), after, ?_, ?_, h.outer hreach hmade rfl⟩
    · rw [Item.tree, Table.tree_add, htrees, arranged, hown]
      rfl
    · rw [hsection, List.nil_append]
      exact hreads
  · have hsection : ownSection (path ++ [key]) false entries =
        [headerLineText (path ++ [key]) false ++ (ownEntries entries).flatMap entryLine] := by
      have hpath : (path ++ [key]).isEmpty = false := by simp
      have hheader : ¬((!false && (ownEntries entries).isEmpty && !entries.isEmpty) = true) := by
        simpa using hown
      rw [ownSection, hpath, if_neg Bool.false_ne_true]
      exact if_neg hheader
    have hline := @headerLine_table limit ⟨root, last⟩ inner wrap path key h (by omega) hkey
    obtain ⟨table, after, htree, hmade, hreads, hreach⟩ :=
      reads_body hsections writable distinct (reads_headerLine hline) (h.set _).enter hdeeper
    refine ⟨.table table, after, htree, ?_, h.outer hreach hmade rfl⟩
    rw [hsection]
    exact hreads

theorem elementRead_object : ElementRead limit (.object entries) := by
  intro path key start inner root before wrap last h hadd hdepth
  rw [depth] at hdepth
  have hdeeper : (path ++ [key]).length + depthEntries entries < limit := by
    rw [List.length_append, List.length_singleton]
    omega
  have hsection : ownSection (path ++ [key]) true entries =
      [headerLineText (path ++ [key]) true ++ (ownEntries entries).flatMap entryLine] := by
    have hpath : (path ++ [key]).isEmpty = false := by simp
    rw [ownSection, hpath, if_neg Bool.false_ne_true]
    rfl
  have hline := @headerLine_element limit ⟨root, last⟩ start wrap path key h (by omega) _ hadd
  obtain ⟨table, after, htree, hmade, hreads, hreach⟩ :=
    reads_body hsections writable distinct (reads_headerLine hline) (h.set _).enterLast hdeeper
  refine ⟨table, after, htree, ?_, h.outer hreach hmade rfl⟩
  rw [sections, hsection]
  exact hreads

end Objects

/-! ## Arrays of tables -/

/-- Further elements of an array of tables, after those in `before` and the last one so far. -/
theorem reads_elements {limit : Nat} {items : List Json}
    (hitems : ∀ item ∈ items, ElementRead limit item) {path : List String}
    (hdepth : path.length + depthItems items < limit) {key : String} {inner root : Table}
    {before : List Table} {so : Table} {wrap : Table → Table} (last : List String)
    (h : Reaches path (inner.put key (.tables before so)) root wrap) :
    ∃ item after, item.tree = .array (treesOf before ++ so.tree :: items.map arranged) ∧
      ReadsAll limit ⟨root, last⟩ (itemSections (path ++ [key]) items) after ∧
      Reaches path (inner.put key item) after.root wrap := by
  induction items generalizing root before so last with
  | nil =>
    refine ⟨.tables before so, ⟨root, last⟩, ?_, ?_, h⟩
    · rw [Item.tree, List.map_nil]
    · rw [itemSections]
      exact .nil _
  | cons item items ih =>
    rw [depthItems] at hdepth
    obtain ⟨table, between, htree, hreads, hreach⟩ := hitems item List.mem_cons_self path key _ inner
      root (before ++ [so]) wrap last h (Table.addElement_next inner key before so path) (by omega)
    obtain ⟨found, after, hfound, hmore, hreach'⟩ :=
      ih (fun i hi => hitems i (List.mem_cons_of_mem _ hi)) (by omega) between.path hreach
    refine ⟨found, after, ?_, ?_, hreach'⟩
    · rw [hfound, Table.treesOf_append, htree, List.append_assoc, List.map_cons]
      rfl
    · rw [itemSections]
      exact hreads.append hmore

theorem valueRead_array {limit : Nat} {items : List Json}
    (hitems : ∀ item ∈ items, ElementRead limit item)
    (hsection : hasSection (.array items) = true) : ValueRead limit (.array items) := by
  intro path key inner root wrap last h hkey hdepth
  rw [depth] at hdepth
  rw [valueSections, if_pos hsection, arranged, if_pos hsection, arrangedItems_eq_map]
  cases items with
  | nil => cases hsection
  | cons item items =>
    rw [depthItems] at hdepth
    obtain ⟨table, between, htree, hreads, hreach⟩ := hitems item List.mem_cons_self path key inner
      inner root [] wrap last h (Table.addElement_first hkey path) (by omega)
    obtain ⟨found, after, hfound, hmore, hreach'⟩ := reads_elements
      (fun i hi => hitems i (List.mem_cons_of_mem _ hi)) (by omega) between.path hreach
    refine ⟨found, after, ?_, ?_, hreach'⟩
    · rw [hfound, htree]
      rfl
    · rw [itemSections]
      exact hreads.append hmore

/-! ## Values -/

/-- Every value that can be written is read back, as an element of an array if it is a table, and
as the value of a key if it has sections. -/
theorem values_read (limit : Nat) (value : Json) : Writable value → Distinct value →
    (isTable value = true → ElementRead limit value) ∧
      (hasSection value = true → ValueRead limit value) := by
  induction value using Json.induction with
  | null | bool _ | number _ | string _ =>
    intro _ _
    constructor <;>
    · intro h
      cases h
  | array items ih =>
    intro writable distinct
    rw [Writable, writableItems_iff] at writable
    rw [Distinct] at distinct
    constructor
    · intro h
      cases h
    · intro hsection
      refine valueRead_array (fun item hitem => ?_) hsection
      rw [hasSection, Bool.and_eq_true, List.all_eq_true] at hsection
      exact (ih item hitem (writable item hitem)
        (Json.distinct_of_mem_items distinct hitem)).1 (hsection.2 item hitem)
  | object entries ih =>
    intro writable distinct
    have hsections : SectionsRead limit entries := by
      rw [Writable, writableEntries_iff] at writable
      rw [Distinct] at distinct
      apply sectionsRead_of_forall
      intro entry hentry hsection
      exact (ih entry hentry (writable entry hentry)
        (Json.distinct_of_mem_entries distinct.2 hentry)).2 hsection
    exact ⟨fun _ => elementRead_object hsections writable distinct,
      fun _ => valueRead_object hsections writable distinct⟩

/-! ## Documents -/

/-- From the start of a document its sections are read as the whole tree, arranged. -/
theorem readsAll_sections {limit : Nat} {entries : List (String × Json)}
    (writable : Writable (.object entries)) (distinct : Distinct (.object entries))
    (hdepth : depthEntries entries < limit) :
    ∃ after : Progress, after.root.tree = arranged (.object entries) ∧
      ReadsAll limit ⟨.empty, []⟩ (sections [] false (.object entries)) after := by
  have hsections : SectionsRead limit entries := by
    have hentries := writable
    have hdistinct := distinct
    rw [Writable, writableEntries_iff] at hentries
    rw [Distinct] at hdistinct
    apply sectionsRead_of_forall
    intro entry hentry hsection
    exact (values_read limit entry.2 (hentries entry hentry)
      (Json.distinct_of_mem_entries hdistinct.2 hentry)).2 hsection
  rw [sections]
  by_cases hown : ownEntries entries = []
  · have hsection : ownSection [] false entries = [] := by
      have hfilter : entries.filter (fun entry => !hasSection entry.2) = [] := hown
      rw [ownSection, hfilter]
      rfl
    have hkeys : (Entries.keys Table.empty.entries ++ Entries.keys (tableEntries entries)).Nodup := by
      rw [Distinct] at distinct
      exact (List.nodup_append.1 (nodup_partitioned distinct.1)).2.1
    obtain ⟨items, after, htrees, hreads, hreach⟩ := hsections [] .empty .empty id []
      (.here .empty) rfl hkeys (by rw [List.length_nil]; omega)
    have hmade : Table.empty.add items ≠ .made := by
      intro heq
      cases heq
    refine ⟨after, ?_, ?_⟩
    · rw [hreach.whole_eq hmade, id, Table.tree_add, htrees, arranged, hown]
      rfl
    · rw [hsection, List.nil_append]
      exact hreads
  · have hsection : ownSection [] false entries = [(ownEntries entries).flatMap entryLine] := by
      have hempty : ¬(ownEntries entries).isEmpty = true := by simpa using hown
      rw [ownSection]
      exact if_neg hempty
    obtain ⟨table, after, htree, hmade, hreads, hreach⟩ :=
      reads_body hsections writable distinct (.refl ⟨.empty, []⟩) (.here .empty)
        (by rw [List.length_nil]; omega)
    refine ⟨after, ?_, ?_⟩
    · rw [hreach.whole_eq hmade]
      exact htree
    · rw [hsection]
      exact hreads

/-- A tree that can be written and is not nested deeper than the reader allows is read back from its
text, with the entries of its tables in the order of a document. -/
theorem readTreeWithin_write {limit : Nat} {entries : List (String × Json)}
    (writable : Writable (.object entries)) (distinct : Distinct (.object entries))
    (hdepth : depth (.object entries) ≤ limit) :
    ∃ text, write (.object entries) = .ok text ∧
      readTreeWithin limit text.toList = .ok (arranged (.object entries)) := by
  have hwrite : write (.object entries) =
      .ok (String.ofList (['\n'].intercalate (sections [] false (.object entries)))) := by
    rw [write, (unwritable?_eq_none _).2 writable]
  rw [depth] at hdepth
  obtain ⟨after, htree, hreads⟩ := readsAll_sections writable distinct hdepth
  refine ⟨_, hwrite, ?_⟩
  rw [String.toList_ofList, ← htree]
  exact readTreeWithin_reads (reads_intercalate hreads)

end CssBuild.Toml
