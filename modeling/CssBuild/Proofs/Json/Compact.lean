import CssBuild.Proofs.Json.Writing

/-!
# CssBuild.Proofs.Json.Compact

The compact text of a tree spells the tree, as the indented text does, with
nothing between the tokens (`spells_compactChars`).
-/

namespace CssBuild.Json

theorem spellsComma_compact (first : Bool) :
    SpellsComma first (if first then [] else [',']) := by
  cases first with
  | true => rfl
  | false => exact ⟨[], isBlanks_nil, rfl⟩

mutual

/-- The compact text of a tree spells the tree, its numbers as they are written. -/
theorem spells_compactChars : (tree : Json) → Spells WritesNumber tree tree.compactChars
  | null => rfl
  | bool true => rfl
  | bool false => rfl
  | number _ => rfl
  | string s => spellsString_quoted s
  | array items => ⟨_, spells_compactItems items true, rfl⟩
  | object entries => ⟨_, spells_compactEntries entries true, rfl⟩

theorem spells_compactItems : (items : List Json) → (first : Bool) →
    SpellsItems WritesNumber first items (compactItems first items ++ [']'])
  | [], _ => ⟨[], isBlanks_nil, rfl⟩
  | item :: rest, first => by
    refine ⟨[], _, _, _, isBlanks_nil, spellsComma_compact first, spells_compactChars item,
      spells_compactItems rest false, ?_⟩
    rw [compactItems]
    simp only [List.append_assoc, List.nil_append]

theorem spells_compactEntries : (entries : List (String × Json)) → (first : Bool) →
    SpellsEntries WritesNumber first entries (compactEntries first entries ++ ['}'])
  | [], _ => ⟨[], isBlanks_nil, rfl⟩
  | (key, value) :: rest, first => by
    refine ⟨[], _, _, [], [], _, _, isBlanks_nil, spellsComma_compact first,
      spellsString_quoted key, isBlanks_nil, isBlanks_nil, spells_compactChars value,
      spells_compactEntries rest false, ?_⟩
    rw [compactEntries]
    simp only [List.append_assoc, List.cons_append, List.nil_append, List.append_nil]

end

/-- The compact text of a tree spells the tree, its numbers as they are written. -/
theorem spellsText_compact (tree : Json) : SpellsText WritesNumber tree tree.compact.toList := by
  rw [compact, String.toList_ofList]
  exact .of_spells (spells_compactChars tree)

end CssBuild.Json
