import CssBuild.Proofs.Json.Equality
import CssBuild.Proofs.Toml.Inline
import Mathlib.Data.List.Basic

/-!
# CssBuild.Proofs.Toml.Arrangement

The order in which a document has the entries of its tables.

1. In a document the entries that stand within a line come before those that
   have sections, in every table that has a section. `arranged` brings a tree
   into that order.
2. The order is a partition of the entries of each table, with the values
   arranged in turn (`arranged_object`); all else follows from that by
   induction over trees.
3. Arranging a tree again changes nothing, the sections of a tree are those of
   the arranged one, and the two trees are the same.
-/

namespace CssBuild.Toml

open Json (Distinct DistinctItems DistinctEntries same)

/-! ## Arranged trees -/

/-- The entries that stand within a line. -/
def ownEntries (entries : List (String × Json)) : List (String × Json) :=
  entries.filter fun entry => !hasSection entry.2

/-- The entries that have sections. -/
def tableEntries (entries : List (String × Json)) : List (String × Json) :=
  entries.filter fun entry => hasSection entry.2

mutual

/-- The tree with the entries of its tables as a document has them: those within a line before
those that have sections. -/
def arranged : Json → Json
  | .null => .null
  | .bool b => .bool b
  | .number n => .number n
  | .string s => .string s
  | .array items => if hasSection (.array items) then .array (arrangedItems items) else .array items
  | .object entries => .object (ownEntries entries ++ arrangedEntries entries)

/-- `arranged`, item by item. -/
def arrangedItems : List Json → List Json
  | [] => []
  | item :: rest => arranged item :: arrangedItems rest

/-- `arranged`, on the values of the entries that have sections. -/
def arrangedEntries : List (String × Json) → List (String × Json)
  | [] => []
  | (key, value) :: rest =>
    if hasSection value then (key, arranged value) :: arrangedEntries rest
    else arrangedEntries rest

end

/-- An entry with its value arranged. -/
def arrangedEntry (entry : String × Json) : String × Json := (entry.1, arranged entry.2)

/-- The entries in the order of a document. -/
def partitioned (entries : List (String × Json)) : List (String × Json) :=
  ownEntries entries ++ tableEntries entries

theorem partitioned_perm (entries : List (String × Json)) : (partitioned entries).Perm entries := by
  have hperm := List.filter_append_perm (fun entry => !hasSection entry.2) entries
  simpa only [partitioned, ownEntries, tableEntries, Bool.not_not] using hperm

theorem nodup_partitioned {entries : List (String × Json)} (h : (Entries.keys entries).Nodup) :
    (Entries.keys (ownEntries entries) ++ Entries.keys (tableEntries entries)).Nodup := by
  rw [← Entries.keys_append]
  exact ((partitioned_perm entries).map Prod.fst).nodup_iff.2 h

theorem mem_ownEntries {entries : List (String × Json)} {entry : String × Json} :
    entry ∈ ownEntries entries ↔ entry ∈ entries ∧ hasSection entry.2 = false := by
  simp [ownEntries]

theorem mem_tableEntries {entries : List (String × Json)} {entry : String × Json} :
    entry ∈ tableEntries entries ↔ entry ∈ entries ∧ hasSection entry.2 = true := by
  simp [tableEntries]

theorem arrangedItems_eq_map (items : List Json) : arrangedItems items = items.map arranged := by
  induction items with
  | nil => rw [arrangedItems, List.map_nil]
  | cons item rest ih => rw [arrangedItems, ih, List.map_cons]

theorem arrangedEntries_eq_map (entries : List (String × Json)) :
    arrangedEntries entries = (tableEntries entries).map arrangedEntry := by
  induction entries with
  | nil => rw [arrangedEntries]; rfl
  | cons entry rest ih =>
    obtain ⟨key, value⟩ := entry
    rw [arrangedEntries]
    by_cases h : hasSection value = true
    · rw [if_pos h, ih]
      simp [tableEntries, h, arrangedEntry]
    · rw [if_neg h, ih]
      simp [tableEntries, h]

/-- What stands within a line stays as it is. -/
theorem arranged_of_inline {value : Json} (h : hasSection value = false) : arranged value = value := by
  cases value with
  | array items => rw [arranged, if_neg (by simp [h])]
  | object entries => simp [hasSection] at h
  | _ => rw [arranged]

theorem map_arranged_ownEntries (entries : List (String × Json)) :
    (ownEntries entries).map arrangedEntry = ownEntries entries := by
  have hsame : ∀ entry ∈ ownEntries entries, arrangedEntry entry = id entry := by
    intro entry hentry
    rw [arrangedEntry, arranged_of_inline (mem_ownEntries.1 hentry).2, id]
  rw [List.map_congr_left hsame, List.map_id]

/-- An arranged object has its entries in the order of a document, with arranged values. -/
theorem arranged_object (entries : List (String × Json)) :
    arranged (.object entries) = .object ((partitioned entries).map arrangedEntry) := by
  rw [arranged, partitioned, List.map_append, map_arranged_ownEntries, arrangedEntries_eq_map]

/-! ## Arranging keeps what decides the arrangement -/

theorem isTable_arranged (value : Json) : isTable (arranged value) = isTable value := by
  cases value with
  | array items =>
    rw [arranged]
    split <;> rfl
  | object entries => rw [arranged]; rfl
  | _ => rw [arranged]

theorem hasSection_items (items : List Json) :
    hasSection (.array (items.map arranged)) = hasSection (.array items) := by
  have hall : (items.map arranged).all isTable = items.all isTable := by
    rw [List.all_map]
    congr 1
    funext item
    exact isTable_arranged item
  rw [hasSection, hasSection, hall, List.isEmpty_map]

theorem hasSection_arranged (value : Json) : hasSection (arranged value) = hasSection value := by
  cases value with
  | array items =>
    rw [arranged]
    split
    · rw [arrangedItems_eq_map, hasSection_items]
    · rfl
  | object entries => rw [arranged]; rfl
  | _ => rw [arranged]

theorem ownEntries_map (entries : List (String × Json)) :
    ownEntries (entries.map arrangedEntry) = (ownEntries entries).map arrangedEntry := by
  rw [ownEntries, List.filter_map, ownEntries]
  congr 2
  funext entry
  simp [arrangedEntry, hasSection_arranged]

theorem tableEntries_map (entries : List (String × Json)) :
    tableEntries (entries.map arrangedEntry) = (tableEntries entries).map arrangedEntry := by
  rw [tableEntries, List.filter_map, tableEntries]
  congr 2
  funext entry
  simp [arrangedEntry, hasSection_arranged]

theorem ownEntries_partitioned (entries : List (String × Json)) :
    ownEntries (partitioned entries) = ownEntries entries := by
  have htables : ownEntries (tableEntries entries) = [] := by
    simp [ownEntries, tableEntries]
  have hown : ownEntries (ownEntries entries) = ownEntries entries := by
    simp [ownEntries]
  rw [partitioned, ownEntries, List.filter_append, ← ownEntries, ← ownEntries, hown, htables,
    List.append_nil]

theorem tableEntries_partitioned (entries : List (String × Json)) :
    tableEntries (partitioned entries) = tableEntries entries := by
  have htables : tableEntries (tableEntries entries) = tableEntries entries := by
    simp [tableEntries]
  have hown : tableEntries (ownEntries entries) = [] := by
    simp [ownEntries, tableEntries]
  rw [partitioned, tableEntries, List.filter_append, ← tableEntries, ← tableEntries, hown, htables,
    List.nil_append]

theorem partitioned_map (entries : List (String × Json)) :
    partitioned (entries.map arrangedEntry) = (partitioned entries).map arrangedEntry := by
  rw [partitioned, ownEntries_map, tableEntries_map, ← List.map_append, partitioned]

/-- Objects are arranged alike if their values are. -/
theorem arranged_object_congr {entries other : List (String × Json)}
    (h : entries.map arrangedEntry = other.map arrangedEntry) :
    arranged (.object entries) = arranged (.object other) := by
  rw [arranged_object, arranged_object, ← partitioned_map, h, partitioned_map]

/-- The order of a document is kept by putting the entries into it again. -/
theorem partitioned_arranged (entries : List (String × Json)) :
    partitioned ((partitioned entries).map arrangedEntry) =
      (partitioned entries).map arrangedEntry := by
  rw [partitioned_map, partitioned, ownEntries_partitioned, tableEntries_partitioned, partitioned]

/-- Arranging a tree again changes nothing. -/
theorem arranged_arranged (tree : Json) : arranged (arranged tree) = arranged tree := by
  induction tree using Json.induction with
  | null | bool _ | number _ | string _ => rw [arranged, arranged]
  | array items ih =>
    have hitems : (items.map arranged).map arranged = items.map arranged := by
      rw [List.map_map]
      exact List.map_congr_left fun item hitem => ih item hitem
    rw [arranged]
    split
    · next h =>
      rw [arrangedItems_eq_map, arranged, hasSection_items, if_pos h, arrangedItems_eq_map, hitems]
    · next h => rw [arranged, if_neg h]
  | object entries ih =>
    have hentries : ((partitioned entries).map arrangedEntry).map arrangedEntry =
        (partitioned entries).map arrangedEntry := by
      rw [List.map_map]
      apply List.map_congr_left
      intro entry hentry
      have hentry := ih entry ((partitioned_perm entries).mem_iff.1 hentry)
      rw [Function.comp_apply, arrangedEntry, arrangedEntry, hentry]
    rw [arranged_object, arranged_object, partitioned_arranged, hentries]

/-! ## Entries of arranged trees -/

theorem keys_arranged (entries : List (String × Json)) :
    (Entries.keys ((partitioned entries).map arrangedEntry)).Perm (Entries.keys entries) := by
  have hkeys : Entries.keys ((partitioned entries).map arrangedEntry) =
      Entries.keys (partitioned entries) := by
    rw [Entries.keys, Entries.keys, List.map_map]
    rfl
  rw [hkeys]
  exact (partitioned_perm entries).map Prod.fst

theorem mem_arranged {entries : List (String × Json)} {key : String} {value : Json} :
    (key, value) ∈ (partitioned entries).map arrangedEntry ↔
      ∃ found, (key, found) ∈ entries ∧ value = arranged found := by
  rw [List.mem_map]
  constructor
  · rintro ⟨⟨k, found⟩, hmem, heq⟩
    obtain ⟨rfl, rfl⟩ := Prod.mk.inj heq
    exact ⟨found, (partitioned_perm entries).mem_iff.1 hmem, rfl⟩
  · rintro ⟨found, hmem, rfl⟩
    exact ⟨(key, found), (partitioned_perm entries).mem_iff.2 hmem, rfl⟩

/-- An arranged tree repeats no key either. -/
theorem distinct_arranged (tree : Json) : Distinct tree → Distinct (arranged tree) := by
  induction tree using Json.induction with
  | null | bool _ | number _ | string _ => rw [arranged]; exact id
  | array items ih =>
    intro distinct
    rw [arranged]
    split
    · rw [Distinct] at distinct ⊢
      apply Json.distinctItems_of_forall
      intro item hitem
      rw [arrangedItems_eq_map] at hitem
      obtain ⟨found, hfound, rfl⟩ := List.mem_map.1 hitem
      exact ih found hfound (Json.distinct_of_mem_items distinct hfound)
    · exact distinct
  | object entries ih =>
    intro distinct
    rw [Distinct] at distinct
    rw [arranged_object, Distinct]
    constructor
    · exact (keys_arranged entries).nodup_iff.2 distinct.1
    · apply Json.distinctEntries_of_forall
      intro entry hentry
      obtain ⟨found, hfound, hvalue⟩ := mem_arranged.1 hentry
      rw [hvalue]
      exact ih (entry.1, found) hfound (Json.distinct_of_mem_entries distinct.2 hfound)

theorem writableItems_iff {items : List Json} :
    WritableItems items ↔ ∀ item ∈ items, Writable item := by
  induction items with
  | nil => simp [WritableItems]
  | cons item rest ih => rw [WritableItems, ih, List.forall_mem_cons]

theorem writableEntries_iff {entries : List (String × Json)} :
    WritableEntries entries ↔ ∀ entry ∈ entries, Writable entry.2 := by
  induction entries with
  | nil => simp [WritableEntries]
  | cons entry rest ih =>
    obtain ⟨key, value⟩ := entry
    rw [WritableEntries, ih, List.forall_mem_cons]

/-- An arranged tree can be written exactly if the tree can. -/
theorem writable_arranged (tree : Json) : Writable (arranged tree) ↔ Writable tree := by
  induction tree using Json.induction with
  | null | bool _ | number _ | string _ => rw [arranged]
  | array items ih =>
    rw [arranged]
    split
    · rw [Writable, Writable, writableItems_iff, writableItems_iff, arrangedItems_eq_map,
        List.forall_mem_map]
      exact forall₂_congr ih
    · rfl
  | object entries ih =>
    rw [arranged_object, Writable, Writable, writableEntries_iff, writableEntries_iff,
      List.forall_mem_map]
    constructor
    · intro h entry hentry
      exact (ih entry hentry).1 (h entry ((partitioned_perm entries).mem_iff.2 hentry))
    · intro h entry hentry
      have hmem := (partitioned_perm entries).mem_iff.1 hentry
      exact (ih entry hmem).2 (h entry hmem)

/-- A tree that repeats no key is the same as the arranged one. -/
theorem same_arranged (tree : Json) : Distinct tree → same tree (arranged tree) = true := by
  induction tree using Json.induction with
  | null | bool _ | number _ | string _ => rw [arranged]; exact Json.same_refl _
  | array items ih =>
    intro distinct
    rw [arranged]
    split
    · rw [Distinct] at distinct
      rw [arrangedItems_eq_map, same]
      exact Json.sameItems_map fun item hitem =>
        ih item hitem (Json.distinct_of_mem_items distinct hitem)
    · exact Json.same_refl _ distinct
  | object entries ih =>
    intro distinct
    rw [Distinct] at distinct
    have hlength : entries.length = ((partitioned entries).map arrangedEntry).length := by
      rw [List.length_map, (partitioned_perm entries).length_eq]
    rw [arranged_object, same, hlength, beq_self_eq_true, Bool.true_and]
    refine Json.sameEntries_of_find? fun entry hentry => ⟨arranged entry.2, ?_, ?_⟩
    · have hdistinct := (keys_arranged entries).nodup_iff.2 distinct.1
      exact (Entries.find?_eq_some_iff hdistinct).2 (mem_arranged.2 ⟨entry.2, hentry, rfl⟩)
    · exact ih entry hentry (Json.distinct_of_mem_entries distinct.2 hentry)

/-! ## Sections -/

/-- The sections of a value of a table. -/
def valueSections (path : List String) : Json → List (List Char)
  | .object entries => sections path false (.object entries)
  | .array items => if hasSection (.array items) then itemSections path items else []
  | _ => []

theorem entrySections_eq_flatMap (path : List String) (entries : List (String × Json)) :
    entrySections path entries =
      (tableEntries entries).flatMap fun entry => valueSections (path ++ [entry.1]) entry.2 := by
  induction entries with
  | nil => rw [entrySections]; rfl
  | cons entry rest ih =>
    obtain ⟨key, value⟩ := entry
    cases value with
    | object entries =>
      rw [entrySections, ih]
      rfl
    | array items =>
      rw [entrySections, ih]
      by_cases h : hasSection (.array items) = true
      · simp [tableEntries, h, valueSections]
      · simp [tableEntries, h]
    | _ =>
      rw [entrySections, ih]
      · rfl
      · simp
      · simp

theorem itemSections_eq_flatMap (path : List String) (items : List Json) :
    itemSections path items = items.flatMap (sections path true) := by
  induction items with
  | nil => rw [itemSections, List.flatMap_nil]
  | cons item rest ih => rw [itemSections, ih, List.flatMap_cons]

theorem ownSection_arranged (path : List String) (element : Bool) (entries : List (String × Json)) :
    ownSection path element ((partitioned entries).map arrangedEntry) =
      ownSection path element entries := by
  have hown : ((partitioned entries).map arrangedEntry).filter (fun entry => !hasSection entry.2) =
      entries.filter (fun entry => !hasSection entry.2) := by
    have hmap := ownEntries_map (partitioned entries)
    rwa [ownEntries_partitioned, map_arranged_ownEntries] at hmap
  have hempty : ((partitioned entries).map arrangedEntry).isEmpty = entries.isEmpty := by
    rw [List.isEmpty_map]
    exact (partitioned_perm entries).isEmpty_eq
  rw [ownSection, ownSection, hown, hempty]

/-- The sections of an arranged tree are those of the tree. -/
theorem sections_arranged (tree : Json) :
    (∀ path element, sections path element (arranged tree) = sections path element tree) ∧
      ∀ path, valueSections path (arranged tree) = valueSections path tree := by
  induction tree using Json.induction with
  | null | bool _ | number _ | string _ => rw [arranged]; exact ⟨fun _ _ => rfl, fun _ => rfl⟩
  | array items ih =>
    constructor
    · intro path element
      rw [arranged]
      split <;> simp [sections]
    · intro path
      rw [arranged]
      split
      · rw [arrangedItems_eq_map, valueSections, valueSections, hasSection_items,
          itemSections_eq_flatMap, itemSections_eq_flatMap, List.flatMap_map]
        congr 1
        exact List.flatMap_congr fun item hitem => (ih item hitem).1 path true
      · rfl
  | object entries ih =>
    have hentries (path : List String) : entrySections path ((partitioned entries).map arrangedEntry) =
        entrySections path entries := by
      rw [entrySections_eq_flatMap, entrySections_eq_flatMap, tableEntries_map,
        tableEntries_partitioned, List.flatMap_map]
      apply List.flatMap_congr
      intro entry hentry
      exact (ih entry (mem_tableEntries.1 hentry).1).2 (path ++ [entry.1])
    have hsections (path : List String) (element : Bool) :
        sections path element (arranged (.object entries)) = sections path element (.object entries) := by
      rw [arranged_object, sections, sections, ownSection_arranged, hentries]
    constructor
    · exact hsections
    · intro path
      have hvalue := hsections path false
      rw [arranged_object] at hvalue ⊢
      exact hvalue

/-- An arranged tree is written as the tree is. -/
theorem write_arranged {tree : Json} (writable : Writable tree) :
    write (arranged tree) = write tree := by
  rw [write, write, (unwritable?_eq_none _).2 writable,
    (unwritable?_eq_none _).2 ((writable_arranged tree).2 writable)]
  simp only [(sections_arranged tree).1]

end CssBuild.Toml
