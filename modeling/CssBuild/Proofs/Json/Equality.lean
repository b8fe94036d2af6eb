import CssBuild.Proofs.Json.Distinct

/-!
# CssBuild.Proofs.Json.Equality

Equality of trees that repeat no key.

1. `Json.induction` proves a property of all trees from the items of an array
   and the values of an object.
2. An object is the same as another one that has as many entries and the same
   value for each of its keys (`sameEntries_of_find?`), and each tree is the
   same as itself.
-/

namespace CssBuild

theorem Number.same_refl (n : Number) : n.same n = true := by
  cases n with
  | integer value _ => simp [Number.same]
  | double d => simp [Number.same, Double.valueEq]

namespace Json

/-- Induction over trees: a property of arrays and objects may use it for what is in them. -/
@[elab_as_elim]
theorem induction {P : Json → Prop} (null : P .null) (bool : ∀ b, P (.bool b))
    (number : ∀ n, P (.number n)) (string : ∀ s, P (.string s))
    (array : ∀ items, (∀ item ∈ items, P item) → P (.array items))
    (object : ∀ entries, (∀ entry ∈ entries, P entry.2) → P (.object entries))
    (tree : Json) : P tree :=
  @Json.rec P (fun items => ∀ item ∈ items, P item) (fun entries => ∀ entry ∈ entries, P entry.2)
    (fun entry => P entry.2) null bool number string array object
    (List.forall_mem_nil _) (fun _ _ hitem hrest => List.forall_mem_cons.2 ⟨hitem, hrest⟩)
    (List.forall_mem_nil _) (fun _ _ hentry hrest => List.forall_mem_cons.2 ⟨hentry, hrest⟩)
    (fun _ _ hvalue => hvalue) tree

/-! ## Equality -/

theorem sameEntries_of_find? {entries other : List (String × Json)}
    (h : ∀ entry ∈ entries, ∃ value, Entries.find? other entry.1 = some value ∧
      same entry.2 value = true) : sameEntries entries other = true := by
  induction entries with
  | nil => rw [sameEntries]
  | cons entry rest ih =>
    obtain ⟨key, value⟩ := entry
    obtain ⟨found, hfind, hsame⟩ := h (key, value) List.mem_cons_self
    have hrest := ih fun e he => h e (List.mem_cons_of_mem _ he)
    rw [sameEntries, hfind, hrest, Bool.and_true]
    exact hsame

theorem sameItems_map {items : List Json} {f : Json → Json}
    (h : ∀ item ∈ items, same item (f item) = true) : sameItems items (items.map f) = true := by
  induction items with
  | nil => rw [List.map_nil, sameItems]
  | cons item rest ih =>
    have hrest := ih fun i hi => h i (List.mem_cons_of_mem _ hi)
    rw [List.map_cons, sameItems, h item List.mem_cons_self, hrest]
    rfl

theorem same_refl (tree : Json) : tree.Distinct → same tree tree = true := by
  induction tree using induction with
  | null => intro _; rw [same]
  | bool b => intro _; simp [same]
  | number n => intro _; rw [same]; exact Number.same_refl n
  | string s => intro _; simp [same]
  | array items ih =>
    intro distinct
    rw [Distinct] at distinct
    have hitems := @sameItems_map items id fun item hitem =>
      ih item hitem (distinct_of_mem_items distinct hitem)
    rw [List.map_id] at hitems
    rw [same, hitems]
  | object entries ih =>
    intro distinct
    rw [Distinct] at distinct
    rw [same, beq_self_eq_true, Bool.true_and]
    apply sameEntries_of_find?
    intro entry hentry
    exact ⟨entry.2, (Entries.find?_eq_some_iff distinct.1).2 hentry,
      ih entry hentry (distinct_of_mem_entries distinct.2 hentry)⟩

end Json

end CssBuild
