import CssBuild.Proofs.Json.Completeness
import CssBuild.Proofs.Json.Numerals
import CssBuild.Proofs.Json.Reading
import CssBuild.Proofs.Json.Writing

/-!
# CssBuild.Proofs.Json.ReadBack

Trees that are written and read again.

1. A text that spells a tree with its numbers as they are written is read as the
   tree where doubles are rounded to the nearest one
   (`readCharsWithin_written`).
2. Where doubles are rounded step by step, a double can be read as another one.
   Then such a text is read as its tree if each double of the tree is read back
   by itself, and only then (`readCharsWithin_written_iff`).
3. A double whose text is rounded correctly is read back. Whether the doubles of a
   tree are read back can also be found out by evaluation (`spelled?_eq_some`).
-/

namespace CssBuild.Json

/-- Each double of the tree is read back from the text that is written for it. -/
def ReadsBack (tree : Json) : Prop :=
  ∀ d, .double d ∈ tree.numbers → readChars (numberText (.double d)) = .ok (.number (.double d))

section Written

variable {p : Number → List Char → Prop} {tree : Json} {text : List Char}

/-- A written text spells its tree in any way in which the texts of its numbers spell these. -/
theorem SpellsText.of_written (h : SpellsText WritesNumber tree text)
    (hp : ∀ n ∈ tree.numbers, p n (numberText n)) : SpellsText p tree text :=
  h.imp WritesNumber.isNumeral fun n hn _ _ ht => ht ▸ hp n hn

/-- In a way in which a written text spells its tree, the texts of its numbers spell these. -/
theorem SpellsText.numberText_of_written (h : SpellsText WritesNumber tree text)
    (hp : ∀ {n t}, p n t → IsNumeral t) (hspells : SpellsText p tree text) :
    ∀ n ∈ tree.numbers, p n (numberText n) := by
  have hwritten := h.forall₂_numerals WritesNumber.isNumeral
  have hnumerals : tree.numbers.map numberText = numerals text := by
    rw [← List.forall₂_eq_eq_eq, List.forall₂_map_left_iff]
    exact hwritten
  have hnumbers := hspells.forall₂_numerals hp
  rw [← hnumerals, List.forall₂_map_right_iff] at hnumbers
  exact List.forall₂_same.1 hnumbers

theorem spellsText_number {n : Number} {t : List Char} (h : p n t) : SpellsText p (.number n) t :=
  .of_spells h

/-- A number is read back if its text spells it, doubles rounded step by step. -/
theorem readChars_numberText_iff {n : Number} :
    readChars (numberText n) = .ok (.number n) ↔ SpellsNumber .stepwise n (numberText n) := by
  constructor
  · intro h
    have hwritten : SpellsText WritesNumber (.number n) (numberText n) := spellsText_number rfl
    exact hwritten.numberText_of_written SpellsNumber.isNumeral
      (spellsText_of_readChars h) n List.mem_cons_self
  · intro h
    exact readCharsWithin_of_spellsText
      (spellsText_number ⟨h, smallExponent_numberText n⟩) (Nat.zero_le _)

/-- All numbers of the tree are read back then, since an integer always is. -/
theorem readsBack_iff : tree.ReadsBack ↔
    ∀ n ∈ tree.numbers, readChars (numberText n) = .ok (.number n) := by
  constructor
  · intro h n hn
    cases n with
    | integer value bounded =>
      exact readChars_numberText_iff.2 (spellsNumber_integerText value bounded .stepwise)
    | double d => exact h d hn
  · intro h d hd
    exact h _ hd

theorem readsBack_of_roundedCorrectly (h : ∀ n ∈ tree.numbers, RoundedCorrectly (numberText n)) :
    tree.ReadsBack := by
  simp only [readsBack_iff, readChars_numberText_iff]
  exact fun n hn => (h n hn n).2 (spellsNumber_numberText n)

theorem readsBack_of_numbers_nil (h : tree.numbers = []) : tree.ReadsBack := by
  refine readsBack_of_roundedCorrectly fun n hn => ?_
  rw [h] at hn
  cases hn

variable {limit : Nat}

/-- A written text is read as its tree, where each double is the nearest one. -/
theorem readCharsWithin_written (h : SpellsText WritesNumber tree text)
    (hdepth : tree.depth ≤ limit) : readCharsWithin .nearest limit text = .ok tree :=
  readCharsWithin_of_spellsText
    (h.of_written fun n _ => ⟨spellsNumber_numberText n, smallExponent_numberText n⟩) hdepth

/-- A written text is read as its tree, where doubles are rounded step by step, if the doubles of
the tree are read back, and only then. -/
theorem readCharsWithin_written_iff (h : SpellsText WritesNumber tree text)
    (hdepth : tree.depth ≤ limit) :
    readCharsWithin .stepwise limit text = .ok tree ↔ tree.ReadsBack := by
  simp only [readsBack_iff, readChars_numberText_iff]
  constructor
  · intro hread
    exact h.numberText_of_written SpellsNumber.isNumeral
      (spellsText_of_readCharsWithin hread)
  · intro hback
    exact readCharsWithin_of_spellsText
      (h.of_written fun n hn => ⟨hback n hn, smallExponent_numberText n⟩) hdepth

end Written

/-! ## Numbers that are found by evaluation -/

/-- The number that a text is read as. -/
def spelled? (rounding : Rounding) (t : List Char) : Option Number :=
  match scalar rounding t with
  | .ok (.number found, []) => some found
  | _ => none

theorem spelled?_eq_some {rounding : Rounding} {found : Number} {t : List Char}
    (small : smallExponent t) :
    spelled? rounding t = some found ↔ SpellsNumber rounding found t := by
  constructor
  · intro h
    unfold spelled? at h
    split at h
    · next hread =>
      obtain rfl := Option.some.inj h
      obtain ⟨u, hu, rfl⟩ := scalar_sound hread
      rw [List.append_nil]
      exact hu
    · cases h
  · intro h
    have hread := scalar_number ⟨h, small⟩ (s := []) ⟨[], [], isBlanks_nil, rfl, by simp⟩
    rw [List.append_nil] at hread
    rw [spelled?, hread]

instance (tree : Json) : Decidable tree.ReadsBack :=
  decidable_of_iff (∀ n ∈ tree.numbers, spelled? .stepwise (numberText n) = some n) (by
    simp only [spelled?_eq_some (smallExponent_numberText _), readsBack_iff,
      readChars_numberText_iff])

/-- The double that is written as `1e-23` is read as the next larger one. -/
example : ¬(number (.double ⟨false, 0x3B282DB34012B251, by decide⟩)).ReadsBack := by decide +kernel

end CssBuild.Json
