import CssBuild.Proofs.Script.Numbers

/-!
# CssBuild.Proofs.Script.Integers

The integer literals of a module.

1. An integer literal has digits of radix ten, of which the first is not zero
   unless it is the only one, or the mark of a radix and its digits. A `_` may
   stand between two digits (`IntegerText`).
2. A module reads such a literal as one number, up to where it ends, and the
   number is exact (`readsNumber_integer`). The same holds of a numeral of JSON,
   but for its sign (`readsNumber_chars`).
-/

namespace CssBuild.Script

open Json (IsDigits WrittenNumeral digitsValue)

/-! ## Literals -/

/-- The digits without what is between them. -/
def withoutMarks (t : List Char) : List Char := t.filter (· != '_')

/-- The letters that mark a radix. -/
def radixLetters : List (Char × Nat) :=
  [('x', 16), ('X', 16), ('o', 8), ('O', 8), ('b', 2), ('B', 2)]

/-- The texts of an integer without a sign. -/
inductive IntegerText : Nat → List Char → Prop where
  /-- Decimal digits, without a zero before others. -/
  | decimal {t : List Char} (digits : Digits 10 t) (leads : t.head? = some '0' → t = ['0']) :
    IntegerText (numberOf 10 (withoutMarks t)) t
  /-- The digits of a radix behind its mark. -/
  | radix {letter : Char} {radix : Nat} {t : List Char} (marks : (letter, radix) ∈ radixLetters)
    (digits : Digits radix t) :
    IntegerText (numberOf radix (withoutMarks t)) ('0' :: letter :: t)

/-- Whether a text starts with a digit and is read as one number, whatever ends it. -/
structure NumberToken (t : List Char) : Prop where
  starts : ∃ c u, t = c :: u ∧ isDigit c = true
  rest (s : List Char) : EndsNumber s → numberRest? (t ++ s) = some s

/-- Whether a text is read as one number, which it writes. -/
structure ReadsNumber (found : Number) (t : List Char) : Prop extends NumberToken t where
  value : numberValue? t = some found

/-- A numeral of JSON is a number of a module. -/
theorem readsNumber_chars {n : WrittenNumeral} {found : Number}
    (h : n.numeral.toNumber? .nearest false = some found) : ReadsNumber found n.chars :=
  ⟨⟨n.chars_eq_cons, fun _ hs => numberRest?_append n hs⟩, (numberValue?_chars n).trans h⟩

/-! ## Digits without marks -/

namespace Digits

variable {radix : Nat} {t : List Char} (h : Digits radix t)
include h

theorem mem {c : Char} (hc : c ∈ t) : digitOf c < radix ∨ c = '_' := by
  induction h with
  | single digit => exact .inl (List.mem_singleton.1 hc ▸ digit)
  | cons digit _ ih =>
    obtain rfl | hc := List.mem_cons.1 hc
    · exact .inl digit
    · exact ih hc
  | apart digit _ ih =>
    obtain rfl | hc := List.mem_cons.1 hc
    · exact .inl digit
    · exact (List.mem_cons.1 hc).elim .inr ih

theorem digitOf_withoutMarks {c : Char} (hc : c ∈ withoutMarks t) : digitOf c < radix := by
  obtain ⟨hmem, hmark⟩ := List.mem_filter.1 hc
  exact (h.mem hmem).resolve_right (bne_iff_ne.1 hmark)

/-- The first digit is kept. -/
theorem exists_withoutMarks (hradix : radix ≤ 16) :
    ∃ c u, t = c :: u ∧ withoutMarks t = c :: withoutMarks u := by
  obtain ⟨c, u, rfl, hc⟩ := h.exists_cons
  have hne : (c != '_') = true := by
    rw [bne_iff_ne]
    rintro rfl
    exact absurd (hc.trans_le hradix) (by decide)
  exact ⟨c, u, rfl, List.filter_cons_of_pos hne⟩

theorem radixValue? (hradix : radix ≤ 16) :
    radixValue? radix (withoutMarks t) = some (numberOf radix (withoutMarks t)) := by
  obtain ⟨c, u, -, hcons⟩ := h.exists_withoutMarks hradix
  exact radixValue?_eq hradix (hcons ▸ List.cons_ne_nil _ _) fun _ => h.digitOf_withoutMarks

end Digits

theorem Digits.isDigits_withoutMarks {t : List Char} (h : Digits 10 t) :
    IsDigits (withoutMarks t) := by
  obtain ⟨c, u, -, hcons⟩ := h.exists_withoutMarks (by decide)
  exact ⟨hcons ▸ List.cons_ne_nil _ _, fun d hd => isDigit_of_digitOf (h.digitOf_withoutMarks hd)⟩

/-! ## Decimal literals -/

section Decimal

variable {t : List Char} (digits : Digits 10 t) (leads : t.head? = some '0' → t = ['0'])
include digits leads

theorem leads_withoutMarks : (withoutMarks t).head? = some '0' → withoutMarks t = ['0'] := by
  obtain ⟨c, u, rfl, hcons⟩ := digits.exists_withoutMarks (by decide)
  rw [hcons]
  intro hhead
  rw [← hcons, leads hhead]
  rfl

/-- The numeral of JSON that writes the same number. -/
theorem exists_numeral : ∃ n : WrittenNumeral, n.chars = withoutMarks t ∧
    n.numeral = ⟨withoutMarks t, none, none⟩ := by
  refine ⟨⟨withoutMarks t, none, none, digits.isDigits_withoutMarks,
    leads_withoutMarks digits leads, fun _ h => nomatch h⟩, ?_, rfl⟩
  simp [WrittenNumeral.chars, WrittenNumeral.fractionChars, WrittenNumeral.exponentChars]

theorem numberRest?_decimal {s : List Char} (hs : EndsNumber s) :
    numberRest? (t ++ s) = some s := by
  have isFraction : ∀ ds : List Char, none = some ds → ds = [] ∨ Digits 10 ds := nofun
  exact numberRest?_parts digits leads isFraction .empty hs

/-- Decimal digits write the number that they denote. -/
theorem numberValue?_decimal {found : Number}
    (h : Number.ofInt? (numberOf 10 (withoutMarks t)) = some found) :
    numberValue? t = some found := by
  obtain ⟨n, hchars, hnumeral⟩ := exists_numeral digits leads
  have hsame : numberValue? t = numberValue? n.chars := by
    simp only [numberValue?, hchars, withoutMarks, List.filter_filter, Bool.and_self]
  have hvalue : numberOf 10 (withoutMarks t) = digitsValue (withoutMarks t) :=
    Option.some.inj ((digits.radixValue? (by decide)).symm.trans
      (radixValue?_digits digits.isDigits_withoutMarks))
  rw [hvalue] at h
  rw [hsame, numberValue?_chars, hnumeral]
  simp [Json.Numeral.toNumber?, h]

end Decimal

/-! ## Literals with a radix -/

/-- What the letter of a radix marks. -/
theorem radixDigit?_spec {letter : Char} {radix : Nat} (h : (letter, radix) ∈ radixLetters) :
    radix ≤ 16 ∧ (∀ digits, radix? ('0' :: letter :: digits) = some (radix, digits)) ∧
      ∃ digit, radixDigit? letter = some digit ∧ (∀ c, digitOf c < radix → digit c = true) ∧
        ∀ c, isHexDigit c = false → digit c = false := by
  have hoctal : ∀ c, isHexDigit c = false → ('0' ≤ c && c ≤ '7') = false := by
    intro c hc
    rw [← Bool.not_eq_true] at hc ⊢
    exact fun h => hc (isHexDigit_of_digitOf ((isOctal_iff.1 h).trans (by decide)))
  have hbinary : ∀ c, isHexDigit c = false → (c == '0' || c == '1') = false := by
    intro c hc
    rw [Bool.or_eq_false_iff, beq_eq_false_iff_ne, beq_eq_false_iff_ne]
    constructor <;>
    · rintro rfl
      cases hc
  have hbinary' : ∀ c, digitOf c < 2 → (c == '0' || c == '1') = true := fun c hc =>
    digit_cases (p := fun c => digitOf c < 2 → (c == '0' || c == '1') = true) (by decide)
      (hc.trans (by decide)) hc
  simp only [radixLetters, List.mem_cons, Prod.mk.injEq, List.not_mem_nil, or_false] at h
  obtain ⟨rfl, rfl⟩ | ⟨rfl, rfl⟩ | ⟨rfl, rfl⟩ | ⟨rfl, rfl⟩ | ⟨rfl, rfl⟩ | ⟨rfl, rfl⟩ := h
  · exact ⟨by decide, fun _ => rfl, _, rfl, fun _ => isHexDigit_of_digitOf, fun _ => id⟩
  · exact ⟨by decide, fun _ => rfl, _, rfl, fun _ => isHexDigit_of_digitOf, fun _ => id⟩
  · exact ⟨by decide, fun _ => rfl, _, rfl, fun _ => isOctal_iff.2, hoctal⟩
  · exact ⟨by decide, fun _ => rfl, _, rfl, fun _ => isOctal_iff.2, hoctal⟩
  · exact ⟨by decide, fun _ => rfl, _, rfl, hbinary', hbinary⟩
  · exact ⟨by decide, fun _ => rfl, _, rfl, hbinary', hbinary⟩

section Radix

variable {letter : Char} {radix : Nat} {t : List Char} (marks : (letter, radix) ∈ radixLetters)
  (digits : Digits radix t)
include marks digits

theorem numberRest?_radix {s : List Char} (hs : EndsNumber s) :
    numberRest? ('0' :: letter :: (t ++ s)) = some s := by
  obtain ⟨hradix, -, digit, hletter, hclass, hstop⟩ := radixDigit?_spec marks
  have hrun : digitRun digit (t ++ s) = s := digits.digitRun hradix hclass fun c hc =>
    ⟨hstop c (hs c hc).1, fun heq => (hs c hc).2 (heq ▸ by decide)⟩
  obtain ⟨d, u, rfl, hd⟩ := digits.exists_cons
  rw [List.cons_append] at hrun ⊢
  simp only [numberRest?, hletter, hclass d hd, if_true, hrun, dropBigMark_ends hs]

/-- Digits of a radix write the number that they denote, as long as it is a number at all. -/
theorem numberValue?_radix :
    numberValue? ('0' :: letter :: t) = Number.ofInt? (numberOf radix (withoutMarks t)) := by
  obtain ⟨hradix, hread, -⟩ := radixDigit?_spec marks
  have hletters : ∀ entry ∈ radixLetters, entry.1 ≠ '_' := by decide
  have hletter : (letter != '_') = true := bne_iff_ne.2 (hletters _ marks)
  have hcleaned : ('0' :: letter :: t).filter (· != '_') = '0' :: letter :: withoutMarks t := by
    have hzero : ('0' != '_') = true := rfl
    simp only [List.filter_cons, hzero, hletter, if_true, withoutMarks]
  have hvalue : numberValue? ('0' :: letter :: t) =
      (Script.radixValue? radix (withoutMarks t)).bind fun n => Number.ofInt? n := by
    rw [numberValue?, hcleaned]
    simp only [hread]
    rfl
  rw [hvalue, digits.radixValue? hradix, Option.bind_some]

end Radix

/-- An integer literal is read up to where it ends. -/
theorem numberToken_integer {n : Nat} {t : List Char} (h : IntegerText n t) : NumberToken t := by
  cases h with
  | decimal digits leads =>
    obtain ⟨c, u, hcons, hc⟩ := digits.exists_cons
    exact ⟨⟨c, u, hcons, isDigit_of_digitOf hc⟩, fun s => numberRest?_decimal digits leads⟩
  | radix marks digits => exact ⟨⟨_, _, rfl, rfl⟩, fun s => numberRest?_radix marks digits⟩

/-- An integer literal is read as its number. -/
theorem readsNumber_integer {n : Nat} {t : List Char} (h : IntegerText n t) {found : Number}
    (hfound : Number.ofInt? n = some found) : ReadsNumber found t := by
  refine ⟨numberToken_integer h, ?_⟩
  cases h with
  | decimal digits leads => exact numberValue?_decimal digits leads hfound
  | radix marks digits => exact (numberValue?_radix marks digits).trans hfound

end CssBuild.Script
