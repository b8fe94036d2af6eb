import CssBuild.Proofs.Json.Streaming

/-!
# CssBuild.Proofs.Json.Typing

What typed readers accept.

1. A typed reader is faithful if it gives a value only where the reader of trees
   finds the tree of that value, up to the same place (`Faithful`).
2. The reader of a text is, and lists and mappings are as soon as their parts
   are (`faithful_text`, `faithful_list`, `faithful_mapping`). This is the
   converse of `Agrees`, which says where a typed reader gives a value at all.
3. A mapping that refuses the keys it has already gives each key once
   (`mapping_distinct`).
-/

namespace CssBuild.Json

/-- Whether a typed reader gives a value only where the tree of the value is read. -/
def Faithful {α : Type} (reader : Typed α) (toTree : α → Json) : Prop :=
  ∀ ⦃room : Nat⦄ ⦃s rest : List Char⦄ ⦃found : α⦄, reader room s = .ok (found, rest) →
    Parses (toTree found) room s rest

theorem otherKind_ne_ok {α : Type} (expected : String) (s : List Char) (found : Found α) :
    otherKind expected s ≠ .ok found := by
  intro h
  unfold otherKind at h
  split at h
  · cases h
  · cases h
  · obtain ⟨_, -, hfail⟩ := bind_eq_ok.1 h
    cases hfail

/-! ## Texts -/

theorem scalar_quote {body rest : List Char} {t : String} (h : stringBody body = .ok (t, rest)) :
    scalar .stepwise ('"' :: body) = .ok (.string t, rest) := by
  have hscalar : scalar .stepwise ('"' :: body) =
      (stringBody body).map fun found => (.string found.1, found.2) := by
    unfold scalar
    rfl
  rw [hscalar, h, ok_map]

theorem faithful_text : Faithful text .string := by
  intro room s rest found h
  rw [text, textOf] at h
  split at h
  · next body hstart =>
    have hscalar : scalar .stepwise (skipBlanks s) = .ok (.string found, rest) := by
      rw [hstart, scalar_quote h]
    exact hscalar
  · cases h
  · exact absurd h (otherKind_ne_ok _ _ _)

/-! ## Lists and mappings -/

section Containers

variable {α : Type} {item : Typed α} {toTree : α → Json}

theorem parsesItems_of_listItems (hitem : Faithful item toTree) {room fuel : Nat} {first : Bool}
    {s rest : List Char} {found : List α}
    (h : listItems (item room) fuel first s = .ok (found, rest)) :
    ParsesItems (found.map toTree) room first s rest := by
  induction fuel generalizing first s found with
  | zero => cases h
  | succ fuel ih =>
    rw [listItems] at h
    obtain ⟨start?, hnext, h⟩ := bind_eq_ok.1 h
    cases start? with
    | none =>
      obtain ⟨rfl, rfl⟩ := Prod.mk.inj (Except.ok.inj h)
      exact ⟨hnext, rfl⟩
    | some start =>
      obtain ⟨⟨value, mid⟩, hvalue, h⟩ := bind_eq_ok.1 h
      obtain ⟨⟨more, last⟩, hmore, h⟩ := bind_eq_ok.1 h
      obtain ⟨rfl, rfl⟩ := Prod.mk.inj (Except.ok.inj h)
      exact ⟨start, mid, hnext, hitem hvalue, ih hmore⟩

theorem faithful_list (hitem : Faithful item toTree) :
    Faithful (list item) fun found => .array (found.map toTree) := by
  intro room s rest found h
  rw [list] at h
  split at h
  · next inner hstart =>
    split at h
    · cases h
    · next under => exact ⟨inner, under, hstart, rfl, parsesItems_of_listItems hitem h⟩
  · cases h
  · exact absurd h (otherKind_ne_ok _ _ _)

variable {refused : List String → String → Option Cause}

theorem parsesEntries_of_mapEntries (hitem : Faithful item toTree) {room fuel : Nat}
    {seen : List String} {first : Bool} {s rest : List Char} {found : List (String × α)}
    (h : mapEntries (item room) refused fuel seen first s = .ok (found, rest)) :
    ParsesEntries (found.map fun entry => (entry.1, toTree entry.2)) room first s rest := by
  induction fuel generalizing seen first s found with
  | zero => cases h
  | succ fuel ih =>
    rw [mapEntries] at h
    obtain ⟨⟨key?, after⟩, hnext, h⟩ := bind_eq_ok.1 h
    cases key? with
    | none =>
      obtain ⟨rfl, rfl⟩ := Prod.mk.inj (Except.ok.inj h)
      exact hnext
    | some key =>
      obtain ⟨start, hcolon, h⟩ := bind_eq_ok.1 h
      obtain ⟨⟨value, mid⟩, hvalue, h⟩ := bind_eq_ok.1 h
      dsimp only at h
      split at h
      · cases h
      · obtain ⟨⟨more, last⟩, hmore, h⟩ := bind_eq_ok.1 h
        obtain ⟨rfl, rfl⟩ := Prod.mk.inj (Except.ok.inj h)
        exact ⟨after, start, mid, hnext, hcolon, hitem hvalue, ih hmore⟩

theorem faithful_mapping (hitem : Faithful item toTree) (expected : String) :
    Faithful (mapping expected item refused) fun found =>
      .object (found.map fun entry => (entry.1, toTree entry.2)) := by
  intro room s rest found h
  rw [mapping] at h
  split at h
  · next inner hstart =>
    split at h
    · cases h
    · next under => exact ⟨inner, under, hstart, rfl, parsesEntries_of_mapEntries hitem h⟩
  · cases h
  · exact absurd h (otherKind_ne_ok _ _ _)

/-- Where a key that is there already is refused, no key comes twice. -/
theorem mapEntries_distinct (refuses : ∀ seen key, key ∈ seen → refused seen key ≠ none)
    {read : List Char → Except Fault (Found α)} {fuel : Nat} {seen : List String} {first : Bool}
    {s rest : List Char} {found : List (String × α)}
    (h : mapEntries read refused fuel seen first s = .ok (found, rest)) :
    (Entries.keys found).Nodup ∧ ∀ key ∈ Entries.keys found, key ∉ seen := by
  induction fuel generalizing seen first s found with
  | zero => cases h
  | succ fuel ih =>
    rw [mapEntries] at h
    obtain ⟨⟨key?, after⟩, -, h⟩ := bind_eq_ok.1 h
    cases key? with
    | none =>
      obtain ⟨rfl, rfl⟩ := Prod.mk.inj (Except.ok.inj h)
      exact ⟨List.nodup_nil, List.forall_mem_nil _⟩
    | some key =>
      obtain ⟨start, -, h⟩ := bind_eq_ok.1 h
      obtain ⟨⟨value, mid⟩, -, h⟩ := bind_eq_ok.1 h
      dsimp only at h
      split at h
      · cases h
      · next hrefused =>
        obtain ⟨⟨more, last⟩, hmore, h⟩ := bind_eq_ok.1 h
        obtain ⟨rfl, rfl⟩ := Prod.mk.inj (Except.ok.inj h)
        obtain ⟨hdistinct, hnew⟩ := ih hmore
        have hkey : key ∉ seen := fun hmem => refuses seen key hmem hrefused
        refine ⟨List.nodup_cons.2 ⟨fun hmem => hnew key hmem List.mem_cons_self, hdistinct⟩, ?_⟩
        refine List.forall_mem_cons.2 ⟨hkey, fun other hother hmem => ?_⟩
        exact hnew other hother (List.mem_cons_of_mem _ hmem)

theorem mapping_distinct (refuses : ∀ seen key, key ∈ seen → refused seen key ≠ none)
    {expected : String} {room : Nat} {s rest : List Char} {found : List (String × α)}
    (h : mapping expected item refused room s = .ok (found, rest)) :
    (Entries.keys found).Nodup := by
  rw [mapping] at h
  split at h
  · split at h
    · cases h
    · exact (mapEntries_distinct refuses h).1
  · cases h
  · exact absurd h (otherKind_ne_ok _ _ _)

end Containers

/-! ## Whole texts -/

/-- A text that a faithful reader accepts is read as the tree of what it gives. -/
theorem readChars_of_readTyped {α : Type} {reader : Typed α} {toTree : α → Json}
    (hreader : Faithful reader toTree) {text : List Char} {found : α}
    (h : readTyped reader text = .ok found) : readChars text = .ok (toTree found) := by
  obtain ⟨⟨value, rest⟩, hread, h⟩ := bind_eq_ok.1 h
  obtain ⟨_, hfinish, h⟩ := bind_eq_ok.1 h
  obtain rfl := Except.ok.inj h
  have htree : Json.value .stepwise (fuelFor text) maxDepth text = .ok (toTree value, rest) :=
    Parses.value _ (hreader hread) (by rw [fuelFor]; omega)
  rw [readChars, readCharsWithin, htree, ok_bind]
  simp only [hfinish, ok_bind]

end CssBuild.Json
