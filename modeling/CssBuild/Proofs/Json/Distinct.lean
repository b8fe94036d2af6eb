import CssBuild.Document

/-!
# CssBuild.Proofs.Json.Distinct

Trees that repeat no key.

1. What every reader makes of a text is such a tree (`distinct_merged`).
2. On such a tree merging changes nothing and no path is repeated.
3. A document is well formed if its tree is such a tree; every document that
   is read is (`Document.wellFormed_ofTree`).
-/

namespace CssBuild

namespace Json

/-! ## Parts of a tree -/

theorem distinct_of_mem_items {items : List Json} (h : DistinctItems items) {item : Json}
    (hmem : item ∈ items) : Distinct item := by
  induction items with
  | nil => simp at hmem
  | cons first rest ih =>
    rw [DistinctItems] at h
    obtain rfl | hrest := List.mem_cons.1 hmem
    · exact h.1
    · exact ih h.2 hrest

theorem distinct_of_mem_entries {entries : List (String × Json)} (h : DistinctEntries entries)
    {key : String} {value : Json} (hmem : (key, value) ∈ entries) : Distinct value := by
  induction entries with
  | nil => simp at hmem
  | cons entry rest ih =>
    obtain ⟨k, v⟩ := entry
    rw [DistinctEntries] at h
    obtain heq | hrest := List.mem_cons.1 hmem
    · rw [(Prod.mk.inj heq).2]
      exact h.1
    · exact ih h.2 hrest

theorem distinctItems_of_forall {items : List Json} (h : ∀ item ∈ items, Distinct item) :
    DistinctItems items := by
  induction items with
  | nil => trivial
  | cons first rest ih =>
    rw [DistinctItems]
    exact ⟨h first List.mem_cons_self, ih fun item hitem => h item (List.mem_cons_of_mem _ hitem)⟩

theorem distinctEntries_of_forall {entries : List (String × Json)}
    (h : ∀ entry ∈ entries, Distinct entry.2) : DistinctEntries entries := by
  induction entries with
  | nil => trivial
  | cons entry rest ih =>
    rw [DistinctEntries]
    exact ⟨h entry List.mem_cons_self, ih fun e he => h e (List.mem_cons_of_mem _ he)⟩

/-! ## Merging -/

theorem mem_put {entries : List (String × Json)} {key : String} {value : Json}
    {entry : String × Json} (h : entry ∈ Entries.put entries key value) :
    entry ∈ entries ∨ entry.2 = value := by
  induction entries with
  | nil =>
    simp only [Entries.put, List.mem_singleton] at h
    exact .inr (congrArg Prod.snd h)
  | cons first rest ih =>
    rw [Entries.put] at h
    split at h
    · obtain rfl | hrest := List.mem_cons.1 h
      · exact .inr rfl
      · exact .inl (List.mem_cons_of_mem _ hrest)
    · obtain rfl | hrest := List.mem_cons.1 h
      · exact .inl List.mem_cons_self
      · exact (ih hrest).imp (List.mem_cons_of_mem _) id

theorem distinctEntries_putAll {entries pairs : List (String × Json)}
    (h : DistinctEntries entries) (hp : DistinctEntries pairs) :
    DistinctEntries (Entries.putAll entries pairs) := by
  induction pairs generalizing entries with
  | nil => exact h
  | cons pair rest ih =>
    rw [DistinctEntries] at hp
    refine ih (distinctEntries_of_forall fun entry hentry => ?_) hp.2
    obtain hold | hnew := mem_put hentry
    · exact distinct_of_mem_entries h hold
    · rw [hnew]
      exact hp.1

mutual

/-- A merged tree repeats no key. -/
theorem distinct_merged : (tree : Json) → Distinct tree.merged
  | null | bool _ | number _ | string _ => by simp [merged, Distinct]
  | array items => by
    rw [merged, Distinct]
    exact distinctItems_merged items
  | object entries => by
    rw [merged, Distinct]
    exact ⟨Entries.nodup_keys_merge _,
      distinctEntries_putAll trivial (distinctEntries_merged entries)⟩

theorem distinctItems_merged : (items : List Json) → DistinctItems (mergedItems items)
  | [] => trivial
  | item :: rest => by
    rw [mergedItems, DistinctItems]
    exact ⟨distinct_merged item, distinctItems_merged rest⟩

theorem distinctEntries_merged :
    (entries : List (String × Json)) → DistinctEntries (mergedEntries entries)
  | [] => trivial
  | (_, value) :: rest => by
    rw [mergedEntries, DistinctEntries]
    exact ⟨distinct_merged value, distinctEntries_merged rest⟩

end

mutual

/-- Merging changes nothing in a tree that repeats no key. -/
theorem merged_of_distinct : (tree : Json) → Distinct tree → tree.merged = tree
  | null, _ | bool _, _ | number _, _ | string _, _ => rfl
  | array items, h => by
    rw [Distinct] at h
    rw [merged, mergedItems_of_distinct items h]
  | object entries, h => by
    rw [Distinct] at h
    rw [merged, mergedEntries_of_distinct entries h.2, Entries.merge_of_nodup h.1]

theorem mergedItems_of_distinct :
    (items : List Json) → DistinctItems items → mergedItems items = items
  | [], _ => rfl
  | item :: rest, h => by
    rw [DistinctItems] at h
    rw [mergedItems, merged_of_distinct item h.1, mergedItems_of_distinct rest h.2]

theorem mergedEntries_of_distinct :
    (entries : List (String × Json)) → DistinctEntries entries → mergedEntries entries = entries
  | [], _ => rfl
  | (_, value) :: rest, h => by
    rw [DistinctEntries] at h
    rw [mergedEntries, merged_of_distinct value h.1, mergedEntries_of_distinct rest h.2]

end

mutual

/-- A tree that repeats no key has no repeated path. -/
theorem repeated_of_distinct : (tree : Json) → Distinct tree → ∀ path, tree.repeated path = []
  | null, _, _ | bool _, _, _ | number _, _, _ | string _, _, _ => rfl
  | array items, h, path => by
    rw [Distinct] at h
    rw [repeated, repeatedItems_of_distinct items h]
  | object entries, h, path => by
    rw [Distinct] at h
    rw [repeated, repeatedEntries_of_distinct entries h.2 path [] (by simpa using h.1)]

theorem repeatedItems_of_distinct : (items : List Json) → DistinctItems items →
    ∀ path i, repeatedItems path i items = []
  | [], _, _, _ => rfl
  | item :: rest, h, path, i => by
    rw [DistinctItems] at h
    rw [repeatedItems, repeated_of_distinct item h.1, repeatedItems_of_distinct rest h.2,
      List.append_nil]

theorem repeatedEntries_of_distinct : (entries : List (String × Json)) →
    DistinctEntries entries → ∀ path seen, (seen ++ Entries.keys entries).Nodup →
    repeatedEntries path seen entries = []
  | [], _, _, _, _ => rfl
  | (key, value) :: rest, h, path, seen, hseen => by
    rw [DistinctEntries] at h
    have hnew : key ∉ seen := fun hmem =>
      (List.nodup_append.1 hseen).2.2 key hmem key List.mem_cons_self rfl
    have hmore : ((key :: seen) ++ Entries.keys rest).Nodup :=
      List.perm_middle.nodup_iff.1 hseen
    rw [repeatedEntries, repeated_of_distinct value h.1, if_neg hnew,
      repeatedEntries_of_distinct rest h.2 path (key :: seen) hmore]
    rfl

end

end Json

namespace Document

/-- The tree of a document repeats no key. -/
def WellFormed (document : Document) : Prop := document.root.Distinct

theorem wellFormed_ofTree (read : Json) : (ofTree read).WellFormed := Json.distinct_merged read

/-- A tree that repeats no key is its own document. -/
theorem ofTree_of_distinct {tree : Json} (h : tree.Distinct) : ofTree tree = ⟨tree, []⟩ := by
  rw [ofTree, Json.merged_of_distinct tree h, Json.repeated_of_distinct tree h]

end Document

end CssBuild
