import CssBuild.Proofs.Json.Equality
import Mathlib.Data.List.Forall2

/-!
# CssBuild.Proofs.Json.Leaves

What stands where in a tree.

1. Steps lead from a tree to a value in it, at any depth (`Json.at?`). A leaf is
   a value with nothing in it; an array or object without anything is one.
2. Two trees have the same leaves if the same steps lead to the same leaf in both
   (`SameLeaves`). Nothing is rounded then: two zeros with different signs are
   different leaves. Only the order of entries is left open.
3. Trees with the same leaves are the same (`same_of_sameLeaves`), since some leaf
   stands in each part of a tree (`exists_leaf`).
-/

namespace CssBuild.Json

/-- A step from a value to one in it. -/
inductive Step where
  /-- To the value of a key. -/
  | key (name : String)
  /-- To an item. -/
  | item (i : Nat)

/-- The value that a step leads to. -/
def next? : Json → Step → Option Json
  | object entries, .key name => Entries.find? entries name
  | array items, .item i => items[i]?
  | _, _ => none

/-- The value at the end of some steps. -/
def at? (tree : Json) (steps : List Step) : Option Json := steps.foldlM next? tree

/-- Whether there is nothing in a value. -/
def IsLeaf : Json → Prop
  | array items => items = []
  | object entries => entries = []
  | null | bool _ | number _ | string _ => True

/-- Whether the same steps lead to the same leaves. -/
def SameLeaves (a b : Json) : Prop :=
  ∀ steps leaf, leaf.IsLeaf → (a.at? steps = some leaf ↔ b.at? steps = some leaf)

/-! ## Steps -/

@[simp] theorem at?_nil (tree : Json) : tree.at? [] = some tree := rfl

theorem at?_cons (tree : Json) (step : Step) (rest : List Step) :
    tree.at? (step :: rest) = (tree.next? step).bind fun found => found.at? rest := rfl

theorem at?_append (tree : Json) (steps more : List Step) :
    tree.at? (steps ++ more) = (tree.at? steps).bind fun found => found.at? more :=
  List.foldlM_append

theorem at?_of_next? {tree found : Json} {step : Step} (h : tree.next? step = some found)
    (rest : List Step) : tree.at? (step :: rest) = found.at? rest := by
  rw [at?_cons, h, Option.bind_some]

theorem exists_next?_item {items : List Json} {item : Json} (h : item ∈ items) :
    ∃ i, (array items).next? (.item i) = some item := List.mem_iff_getElem?.1 h

theorem next?_key_iff {entries : List (String × Json)} (distinct : (Entries.keys entries).Nodup)
    {key : String} {value : Json} :
    (object entries).next? (.key key) = some value ↔ (key, value) ∈ entries :=
  Entries.find?_eq_some_iff distinct

/-- What stands in a tree that repeats no key repeats none. -/
theorem distinct_of_next? {tree found : Json} (distinct : tree.Distinct) {step : Step}
    (h : tree.next? step = some found) : found.Distinct := by
  cases tree with
  | array items =>
    cases step with
    | item i => exact distinct_of_mem_items distinct (List.mem_of_getElem? h)
    | key name => cases h
  | object entries =>
    cases step with
    | key name => exact distinct_of_mem_entries distinct.2 (Entries.mem_of_find? h)
    | item i => cases h
  | null | bool _ | number _ | string _ => cases h

/-! ## Leaves -/

/-- Some leaf stands in each tree. -/
theorem exists_leaf (tree : Json) : ∃ steps leaf, leaf.IsLeaf ∧ tree.at? steps = some leaf := by
  induction tree using induction with
  | null => exact ⟨[], null, trivial, rfl⟩
  | bool b => exact ⟨[], bool b, trivial, rfl⟩
  | number n => exact ⟨[], number n, trivial, rfl⟩
  | string s => exact ⟨[], string s, trivial, rfl⟩
  | array items ih =>
    cases items with
    | nil => exact ⟨[], array [], rfl, rfl⟩
    | cons item rest =>
      obtain ⟨steps, leaf, hleaf, hat⟩ := ih item List.mem_cons_self
      exact ⟨.item 0 :: steps, leaf, hleaf, hat⟩
  | object entries ih =>
    cases entries with
    | nil => exact ⟨[], object [], rfl, rfl⟩
    | cons entry rest =>
      obtain ⟨steps, leaf, hleaf, hat⟩ := ih entry List.mem_cons_self
      have hfirst : (object (entry :: rest)).next? (.key entry.1) = some entry.2 := if_pos rfl
      exact ⟨.key entry.1 :: steps, leaf, hleaf, (at?_of_next? hfirst steps).trans hat⟩

theorem sameItems_of_forall₂ {items other : List Json}
    (h : List.Forall₂ (fun a b => same a b = true) items other) : sameItems items other = true := by
  induction h with
  | nil => rw [sameItems]
  | cons hfirst _ ih =>
    rw [sameItems, hfirst, ih]
    rfl

namespace SameLeaves

variable {a b c : Json}

theorem refl (a : Json) : SameLeaves a a := fun _ _ _ => Iff.rfl

theorem symm (h : SameLeaves a b) : SameLeaves b a :=
  fun steps leaf hleaf => (h steps leaf hleaf).symm

theorem trans (h : SameLeaves a b) (h' : SameLeaves b c) : SameLeaves a c :=
  fun steps leaf hleaf => (h steps leaf hleaf).trans (h' steps leaf hleaf)

/-- What has the leaves of a leaf is that leaf. -/
theorem eq_of_isLeaf (h : SameLeaves a b) (hleaf : a.IsLeaf) : b = a :=
  Option.some.inj ((h [] a hleaf).1 (at?_nil a))

/-- Where a step leads to a value in one tree, it leads to one with the same leaves in the other. -/
theorem next? (h : SameLeaves a b) {step : Step} {x : Json} (hnext : a.next? step = some x) :
    ∃ y, b.next? step = some y ∧ SameLeaves x y := by
  obtain ⟨steps, leaf, hleaf, hfound⟩ := exists_leaf x
  have hother := (h (step :: steps) leaf hleaf).1 ((at?_of_next? hnext steps).trans hfound)
  rw [at?_cons] at hother
  obtain ⟨y, hy, -⟩ := Option.bind_eq_some_iff.1 hother
  refine ⟨y, hy, fun rest leaf hleaf => ?_⟩
  rw [← at?_of_next? hnext, ← at?_of_next? hy]
  exact h (step :: rest) leaf hleaf

theorem exists_items {items : List Json} (h : SameLeaves (array items) b) :
    ∃ other, b = array other := by
  cases items with
  | nil => exact ⟨[], h.eq_of_isLeaf rfl⟩
  | cons item rest =>
    have hfirst : (array (item :: rest)).next? (.item 0) = some item := rfl
    obtain ⟨y, hy, -⟩ := h.next? hfirst
    cases b with
    | array other => exact ⟨other, rfl⟩
    | null | bool _ | number _ | string _ | object _ => cases hy

theorem exists_entries {entries : List (String × Json)} (h : SameLeaves (object entries) b) :
    ∃ other, b = object other := by
  cases entries with
  | nil => exact ⟨[], h.eq_of_isLeaf rfl⟩
  | cons entry rest =>
    have hfirst : (object (entry :: rest)).next? (.key entry.1) = some entry.2 := if_pos rfl
    obtain ⟨y, hy, -⟩ := h.next? hfirst
    cases b with
    | object other => exact ⟨other, rfl⟩
    | null | bool _ | number _ | string _ | array _ => cases hy

/-- Arrays with the same leaves have as many items, each with the same leaves. -/
theorem items {items other : List Json} (h : SameLeaves (array items) (array other)) :
    List.Forall₂ SameLeaves items other := by
  have hat {items : List Json} {i : Nat} (hi : i < items.length) :
      (array items).next? (.item i) = some items[i] := List.getElem?_eq_getElem hi
  have hnext (i : Nat) (hi : i < items.length) :
      ∃ y, other[i]? = some y ∧ SameLeaves items[i] y := h.next? (hat hi)
  have hback (i : Nat) (hi : i < other.length) :
      ∃ x, items[i]? = some x ∧ SameLeaves other[i] x := h.symm.next? (hat hi)
  have hlength : items.length = other.length := by
    apply Nat.le_antisymm
    · refine Nat.le_of_not_lt fun hlt => ?_
      obtain ⟨y, hy, -⟩ := hnext _ hlt
      rw [List.getElem?_eq_none (Nat.le_refl _)] at hy
      cases hy
    · refine Nat.le_of_not_lt fun hlt => ?_
      obtain ⟨x, hx, -⟩ := hback _ hlt
      rw [List.getElem?_eq_none (Nat.le_refl _)] at hx
      cases hx
  refine List.forall₂_iff_get.2 ⟨hlength, fun i hi hi' => ?_⟩
  obtain ⟨y, hy, hsame⟩ := hnext i hi
  rw [List.getElem?_eq_getElem hi'] at hy
  rw [List.get_eq_getElem, List.get_eq_getElem, Option.some.inj hy]
  exact hsame

/-- Each key of an object is one of any object with the same leaves. -/
theorem keys_subset {entries other : List (String × Json)} (distinct : (Entries.keys entries).Nodup)
    (h : SameLeaves (object entries) (object other)) :
    Entries.keys entries ⊆ Entries.keys other := by
  intro key hkey
  obtain ⟨entry, hentry, rfl⟩ := List.mem_map.1 hkey
  obtain ⟨y, hy, -⟩ := h.next? ((next?_key_iff distinct).2 hentry)
  exact Entries.mem_keys_of_mem (Entries.mem_of_find? hy)

theorem length_eq {entries other : List (String × Json)} (distinct : (Entries.keys entries).Nodup)
    (distinct' : (Entries.keys other).Nodup) (h : SameLeaves (object entries) (object other)) :
    entries.length = other.length := by
  have hkeys : (Entries.keys entries).Perm (Entries.keys other) :=
    (List.perm_ext_iff_of_nodup distinct distinct').2 fun _ =>
      ⟨fun hkey => h.keys_subset distinct hkey, fun hkey => h.symm.keys_subset distinct' hkey⟩
  have hlength := hkeys.length_eq
  rwa [Entries.keys, Entries.keys, List.length_map, List.length_map] at hlength

end SameLeaves

/-- Trees with the same leaves are the same. -/
theorem same_of_sameLeaves (a : Json) : ∀ {b : Json}, a.Distinct → b.Distinct → SameLeaves a b →
    same a b = true := by
  induction a using induction with
  | null | bool _ | number _ | string _ =>
    intro b distinct _ h
    rw [h.eq_of_isLeaf trivial]
    exact same_refl _ distinct
  | array items ih =>
    intro b distinct distinct' h
    obtain ⟨other, rfl⟩ := h.exists_items
    rw [Distinct] at distinct distinct'
    obtain ⟨hlength, hitems⟩ := List.forall₂_iff_get.1 h.items
    rw [same]
    apply sameItems_of_forall₂
    refine List.forall₂_iff_get.2 ⟨hlength, fun i hi hi' => ?_⟩
    have hmem := List.get_mem items ⟨i, hi⟩
    exact ih _ hmem (distinct_of_mem_items distinct hmem)
      (distinct_of_mem_items distinct' (List.get_mem other ⟨i, hi'⟩)) (hitems i hi hi')
  | object entries ih =>
    intro b distinct distinct' h
    obtain ⟨other, rfl⟩ := h.exists_entries
    rw [Distinct] at distinct distinct'
    rw [same, h.length_eq distinct.1 distinct'.1, beq_self_eq_true, Bool.true_and]
    apply sameEntries_of_find?
    intro entry hentry
    obtain ⟨y, hy, hsame⟩ := h.next? ((next?_key_iff distinct.1).2 hentry)
    exact ⟨y, hy, ih entry hentry (distinct_of_mem_entries distinct.2 hentry)
      (distinct_of_mem_entries distinct'.2 (Entries.mem_of_find? hy)) hsame⟩

end CssBuild.Json
