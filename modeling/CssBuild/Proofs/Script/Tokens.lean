import CssBuild.Proofs.Results
import CssBuild.Proofs.Script.Trivia
import CssBuild.Script.Value

/-!
# CssBuild.Proofs.Script.Tokens

The tokens around a value.

1. A value starts with one of few characters, so that no comment starts there
   (`StartsValue`).
2. After a value come trivia and then a mark that separates or closes, or the
   text ends (`Ends`). No operator and no name starts there.
3. A name goes on up to what cannot go on one (`name?_append`).
-/

namespace CssBuild.Script

/-! ## Slices -/

theorem between_append (u rest : List Char) : between (u ++ rest) rest = u := by
  simp [between]

/-! ## Around a value -/

/-- The characters that can start a value. -/
def valueStarts : List Char :=
  ['n', 'u', 't', 'f', 'r', '"', '\'', '\x60', '[', '{', '(', '+', '-', '0', '1', '2', '3', '4',
    '5', '6', '7', '8', '9']

/-- The start of a value; a sign is not doubled. -/
def StartsValue (s : List Char) : Prop :=
  ∃ c rest, s = c :: rest ∧ c ∈ valueStarts ∧
    (c = '+' ∨ c = '-' → ∃ d more, rest = d :: more ∧ d ≠ c)

theorem StartsValue.append {s : List Char} (h : StartsValue s) (rest : List Char) :
    StartsValue (s ++ rest) := by
  obtain ⟨c, more, rfl, hc, hsign⟩ := h
  refine ⟨c, more ++ rest, rfl, hc, fun hcase => ?_⟩
  obtain ⟨d, others, rfl, hd⟩ := hsign hcase
  exact ⟨d, others ++ rest, rfl, hd⟩

/-- What holds of the characters that can start a value holds of its first one. -/
theorem StartsValue.head {p : Char → Prop} (h : ∀ c ∈ valueStarts, p c) {s : List Char}
    (hs : StartsValue s) : ∃ c rest, s = c :: rest ∧ p c := by
  obtain ⟨c, rest, rfl, hc, -⟩ := hs
  exact ⟨c, rest, rfl, h c hc⟩

theorem StartsValue.solid {s : List Char} (h : StartsValue s) : Solid s := by
  obtain ⟨c, rest, rfl, hc⟩ := h.head (p := fun c => isBlank c = false ∧ c ≠ '/') (by decide)
  exact solid_cons hc rest

theorem StartsValue.markup {s : List Char} (h : StartsValue s) : markupComment? s = none := by
  obtain ⟨c, rest, rfl, hc, hsign⟩ := h
  unfold markupComment?
  split
  · next heq =>
    cases heq
    exact absurd hc (by decide)
  · next heq =>
    cases heq
    obtain ⟨d, more, hrest, hd⟩ := hsign (.inr rfl)
    cases hrest
    exact absurd rfl hd
  · rfl

/-- The end of a text, or something that separates or closes. -/
def Closing (s : List Char) : Prop := ∀ c, s.head? = some c → c ∈ [',', ']', '}', ')', ';']

theorem Closing.cases {p : Char → Prop} (h : ∀ c ∈ [',', ']', '}', ')', ';'], p c) {s : List Char}
    (hs : Closing s) {c : Char} (hc : s.head? = some c) : p c := h c (hs c hc)

theorem Closing.solid {s : List Char} (h : Closing s) : Solid s := fun _ hc =>
  h.cases (p := fun c => isBlank c = false ∧ c ≠ '/') (by decide) hc

theorem operator?_closing {s : List Char} (h : Closing s) : operator? s = none := by
  cases s with
  | nil => rfl
  | cons c rest =>
    exact h.cases (p := fun c => operator? (c :: rest) = none)
      (by simp only [List.forall_mem_cons]; exact ⟨rfl, rfl, rfl, rfl, rfl, by simp⟩) rfl

/-- What can stand after a value. -/
def Ends (s : List Char) : Prop :=
  ∃ trivia rest, Trivia trivia ∧ s = trivia ++ rest ∧ Closing rest

namespace Ends

/-- Trivia and a mark that separates or closes. -/
theorem mark {trivia : List Char} (h : Trivia trivia) {c : Char}
    (hc : c ∈ [',', ']', '}', ')', ';']) (s : List Char) : Ends (trivia ++ c :: s) :=
  ⟨trivia, c :: s, h, rfl, fun _ hd => Option.some.inj hd ▸ hc⟩

variable {s : List Char} (h : Ends s)
include h

theorem exists_closing : ∃ rest, Closing rest ∧ skip s = rest := by
  obtain ⟨trivia, rest, htrivia, rfl, hrest⟩ := h
  exact ⟨rest, hrest, (skip_trivia htrivia rest).trans (skip_solid hrest.solid)⟩

/-- What holds of blanks, slashes and closing marks holds of the first character. -/
theorem head {p : Char → Prop} (hblank : ∀ c, isBlank c = true → p c)
    (hmarks : ∀ c ∈ ['/', ',', ']', '}', ')', ';'], p c) {c : Char} (hc : s.head? = some c) :
    p c := by
  obtain ⟨trivia, rest, htrivia, rfl, hrest⟩ := h
  obtain hc | rfl | hc := htrivia.head hc
  · exact hblank c hc
  · exact hmarks '/' (by decide)
  · exact hmarks c (List.mem_cons_of_mem _ (hrest c hc))

end Ends

/-! ## Names -/

/-- Nothing that goes on a name. -/
def EndsName (s : List Char) : Prop := ∀ c, s.head? = some c → isNameChar c = false ∧ c ≠ '\\'

theorem nameEscape?_eq_none {s : List Char} (h : s.head? ≠ some '\\') : nameEscape? s = none := by
  unfold nameEscape?
  split
  · exact absurd rfl h
  · exact absurd rfl h
  · rfl

theorem EndsName.nameEscape? {s : List Char} (h : EndsName s) : nameEscape? s = none :=
  nameEscape?_eq_none fun hc => (h _ hc).2 rfl

theorem EndsName.dropWhile {s : List Char} (h : EndsName s) : s.dropWhile isNameChar = s := by
  cases s with
  | nil => rfl
  | cons c rest => exact List.dropWhile_cons_of_neg (by simp [(h c rfl).1])

theorem nameRest_append {word s : List Char} (hword : ∀ c ∈ word, isNameChar c = true)
    (hs : EndsName s) (fuel : Nat) : nameRest fuel (word ++ s) = s := by
  have hdrop : (word ++ s).dropWhile isNameChar = s := by
    rw [List.dropWhile_append_of_pos hword, hs.dropWhile]
  cases fuel with
  | zero => rw [nameRest, hdrop]
  | succ fuel => simp only [nameRest, hdrop, hs.nameEscape?]

theorem name?_append (c : Char) (word : List Char) {s : List Char} (hstart : isNameStart c = true)
    (hword : ∀ d ∈ word, isNameChar d = true) (hs : EndsName s) :
    name? (c :: (word ++ s)) = some (c :: word, s) := by
  simp only [name?, hstart, if_true, nameRest_append hword hs]
  rw [← List.cons_append, between_append]

theorem name?_eq_none {c : Char} {s : List Char} (hstart : isNameStart c = false)
    (hescape : c ≠ '\\') : name? (c :: s) = none := by
  have hnone : nameEscape? (c :: s) = none :=
    nameEscape?_eq_none fun hc => hescape (Option.some.inj hc)
  simp only [name?, hstart, hnone, Bool.false_eq_true, if_false]

theorem name?_closing {s : List Char} (h : Closing s) : name? s = none := by
  cases s with
  | nil => rfl
  | cons c rest =>
    obtain ⟨hstart, hescape⟩ :=
      h.cases (p := fun c => isNameStart c = false ∧ c ≠ '\\') (by decide) (c := c) rfl
    exact name?_eq_none hstart hescape

theorem keyword?_closing {s : List Char} (h : Closing s) (word : List Char) :
    keyword? word s = none := by
  simp only [keyword?, name?_closing h]

theorem Ends.endsName {s : List Char} (h : Ends s) : EndsName s := by
  intro c hc
  refine h.head (p := fun c => isNameChar c = false ∧ c ≠ '\\') (fun c hblank => ?_) (by decide) hc
  refine ⟨by simp [isNameChar, hblank], ?_⟩
  rintro rfl
  cases hblank

end CssBuild.Script
