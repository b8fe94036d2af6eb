import CssBuild.Proofs.Decimal.Integers
import CssBuild.Proofs.Script.Integers

/-!
# CssBuild.Proofs.Script.Decimals

The literals of a module with a point or an exponent.

1. Such a literal has decimal digits around a point, or an exponent, or both.
   There may be no digits on one side of the point, and a `_` may stand between
   two digits anywhere (`DecimalLiteral`).
2. It is read as one number up to its end (`DecimalLiteral.numberRest?_chars`), and
   it is the double that is nearest to what it denotes
   (`DecimalLiteral.numberValue?_chars`).
3. Where it denotes an integer up to `2 ^ 53`, the double is written as that
   integer with a fraction of zero (`DecimalLiteral.exists_double`).
-/

namespace CssBuild.Script

open Json (IsDigits WrittenNumeral WrittenExponent Numeral digitsValue)

/-! ## Literals -/

/-- An exponent as it is written, with `_` between its digits or not. -/
structure MarkedExponent where
  mark : Char
  sign : List Char
  digits : List Char
  isMark : mark = 'e' ∨ mark = 'E'
  isSign : sign = [] ∨ sign = ['+'] ∨ sign = ['-']
  isDigits : Digits 10 digits

namespace MarkedExponent

variable (e : MarkedExponent)

/-- The text. -/
def chars : List Char := e.mark :: (e.sign ++ e.digits)

/-- The exponent without what is between its digits. -/
def plain : WrittenExponent where
  mark := e.mark
  sign := e.sign
  digits := withoutMarks e.digits
  isMark := e.isMark
  isSign := e.isSign
  isDigits := e.isDigits.isDigits_withoutMarks

theorem withoutMarks_chars : withoutMarks e.chars = e.plain.chars := by
  have hmark : (e.mark != '_') = true := by
    rcases e.isMark with h | h <;> rw [h] <;> rfl
  have hsign : withoutMarks e.sign = e.sign := by
    rcases e.isSign with h | h | h <;> rw [h] <;> rfl
  simp only [chars, withoutMarks, List.filter_cons, hmark, if_true, List.filter_append]
  exact congrArg (fun sign => e.mark :: (sign ++ withoutMarks e.digits)) hsign

/-- The text of an exponent that may not be there. -/
def optionChars : Option MarkedExponent → List Char
  | some e => e.chars
  | none => []

theorem withoutMarks_optionChars (e? : Option MarkedExponent) :
    withoutMarks (optionChars e?) = WrittenNumeral.exponentChars (e?.map plain) := by
  cases e? with
  | none => rfl
  | some e => exact e.withoutMarks_chars

theorem exponentText_optionChars (e? : Option MarkedExponent) : ExponentText (optionChars e?) := by
  cases e? with
  | none => exact .empty
  | some e => exact .marked e.isMark e.isSign e.isDigits

end MarkedExponent

/-- A decimal literal with a point or an exponent. -/
structure DecimalLiteral where
  whole : List Char
  fraction : Option (List Char)
  exponent : Option MarkedExponent
  /-- A zero before other digits is left out. -/
  isWhole : whole = [] ∨ Digits 10 whole ∧ (whole.head? = some '0' → whole = ['0'])
  isFraction : ∀ digits, fraction = some digits → digits = [] ∨ Digits 10 digits
  /-- There are digits on one side of the point. -/
  nonempty : whole ++ fraction.getD [] ≠ []
  /-- There is a point or an exponent. -/
  marked : fraction = none → exponent ≠ none

namespace DecimalLiteral

variable (l : DecimalLiteral)

/-- The text. -/
def chars : List Char :=
  l.whole ++ (WrittenNumeral.fractionChars l.fraction ++ MarkedExponent.optionChars l.exponent)

/-- The numeral. -/
def numeral : Numeral where
  whole := withoutMarks l.whole
  fraction := l.fraction.map withoutMarks
  exponent := l.exponent.map fun e => e.plain.value

/-- All digits before the exponent, as a number. -/
def significand : Nat := digitsValue (withoutMarks (l.whole ++ l.fraction.getD []))

/-- The power of ten of the last digit before the exponent. -/
def power : Int :=
  (l.exponent.map fun e => e.plain.value).getD 0 - (withoutMarks (l.fraction.getD [])).length

/-- Whether a literal denotes an integer. -/
def Denotes (n : Nat) : Prop := l.significand * 10 ^ l.power.toNat = n * 10 ^ (-l.power).toNat

/-- A literal is read up to its end. -/
theorem numberRest?_chars {s : List Char} (hs : EndsNumber s) :
    numberRest? (l.chars ++ s) = some s := by
  have isExponent := MarkedExponent.exponentText_optionChars l.exponent
  obtain hempty | ⟨digits, leads⟩ := l.isWhole
  · obtain ⟨ds, hfraction⟩ := Option.ne_none_iff_exists'.1 fun hnone : l.fraction = none =>
      l.nonempty (by rw [hempty, hnone]; rfl)
    have hne : ds ≠ [] := by
      have hnonempty := l.nonempty
      rwa [hempty, hfraction] at hnonempty
    have hdigits := (l.isFraction ds hfraction).resolve_left hne
    have hrest := fractionRest_digits isExponent hs (.inr hdigits)
    obtain ⟨c, u, rfl, hc⟩ := hdigits.exists_cons
    have hdigit := isDigit_of_digitOf hc
    have htext : l.chars ++ s =
        '.' :: c :: (u ++ (MarkedExponent.optionChars l.exponent ++ s)) := by
      simp [chars, hempty, hfraction, WrittenNumeral.fractionChars]
    rw [List.cons_append, List.head?_cons, Option.any_some, hdigit, if_pos rfl] at hrest
    rw [htext]
    simp only [numberRest?, hdigit, if_true, List.drop_succ_cons, List.drop_zero, hrest]
  · rw [chars, List.append_assoc, List.append_assoc]
    exact numberRest?_parts digits leads l.isFraction isExponent hs

/-! ## Values -/

theorem withoutMarks_chars : withoutMarks l.chars = withoutMarks l.whole ++
    (WrittenNumeral.fractionChars (l.fraction.map withoutMarks) ++
      WrittenNumeral.exponentChars (l.exponent.map MarkedExponent.plain)) := by
  have hfraction : withoutMarks (WrittenNumeral.fractionChars l.fraction) =
      WrittenNumeral.fractionChars (l.fraction.map withoutMarks) := by
    cases l.fraction <;> rfl
  rw [chars, ← hfraction, ← MarkedExponent.withoutMarks_optionChars]
  simp only [withoutMarks, List.filter_append]

theorem isDigit_withoutMarks {t : List Char} (h : t = [] ∨ Digits 10 t) :
    ∀ c ∈ withoutMarks t, isDigit c = true := by
  obtain rfl | h := h
  · exact fun c hc => nomatch hc
  · exact h.isDigits_withoutMarks.2

theorem withoutMarks_eq_nil {t : List Char} (h : t = [] ∨ Digits 10 t) (hnil : withoutMarks t = []) :
    t = [] :=
  h.resolve_right fun digits => digits.isDigits_withoutMarks.1 hnil

theorem radix?_withoutMarks : radix? (withoutMarks l.chars) = none := by
  rw [l.withoutMarks_chars]
  obtain hempty | ⟨digits, leads⟩ := l.isWhole
  · cases hfraction : l.fraction with
    | none => exact absurd (by rw [hempty, hfraction]; rfl) l.nonempty
    | some digits =>
      rw [hempty]
      rfl
  · exact radix?_parts (digits_of_isDigits digits.isDigits_withoutMarks)
      (leads_withoutMarks digits leads) (exponentText_chars _)

theorem decimalNumeral?_withoutMarks : decimalNumeral? (withoutMarks l.chars) = some l.numeral := by
  have isWhole : l.whole = [] ∨ Digits 10 l.whole := l.isWhole.imp_right And.left
  have isFraction : ∀ digits, l.fraction.map withoutMarks = some digits →
      ∀ c ∈ digits, isDigit c = true := by
    intro digits h
    obtain ⟨marked, hmarked, rfl⟩ := Option.map_eq_some_iff.1 h
    exact isDigit_withoutMarks (l.isFraction marked hmarked)
  have hnonempty : withoutMarks l.whole ++ (l.fraction.map withoutMarks).getD [] ≠ [] := by
    intro hnil
    obtain ⟨hwhole, hfraction⟩ := List.append_eq_nil_iff.1 hnil
    apply l.nonempty
    rw [withoutMarks_eq_nil isWhole hwhole, List.nil_append]
    cases hcase : l.fraction with
    | none => rfl
    | some digits =>
      rw [hcase] at hfraction
      exact withoutMarks_eq_nil (l.isFraction digits hcase) hfraction
  rw [l.withoutMarks_chars, decimalNumeral?_parts _ (isDigit_withoutMarks isWhole) isFraction
    hnonempty, Option.map_map]
  rfl

theorem toDouble?_numeral :
    l.numeral.toDouble? false = Double.ofDecimal? false l.significand l.power := by
  have hfraction : (l.fraction.map withoutMarks).getD [] = withoutMarks (l.fraction.getD []) := by
    cases l.fraction <;> rfl
  have hdigits : withoutMarks (l.whole ++ l.fraction.getD []) =
      withoutMarks l.whole ++ withoutMarks (l.fraction.getD []) := List.filter_append _ _
  simp only [Numeral.toDouble?, numeral, significand, power, hfraction, hdigits]

/-- A literal is the double that is nearest to what it denotes. -/
theorem numberValue?_chars : numberValue? l.chars =
    (Double.ofDecimal? false l.significand l.power).map .double := by
  have hdouble : l.numeral.fraction = none → l.numeral.exponent ≠ none := by
    simpa [numeral] using l.marked
  have hcleaned : l.chars.filter (· != '_') = withoutMarks l.chars := rfl
  simp only [numberValue?, hcleaned, radix?_withoutMarks, decimalNumeral?_withoutMarks]
  refine (Json.toNumber?_of_double hdouble .nearest false).trans ?_
  rw [Json.Numeral.rounded?, toDouble?_numeral]

/-- A literal that denotes an integer is written as that integer, with a fraction of zero. -/
theorem exists_double {n : Nat} (hle : n ≤ 2 ^ 53) (h : l.Denotes n) :
    ∃ d, numberValue? l.chars = some (.double d) ∧
      Layout.document.text d = Layout.digits n ++ ['.', '0'] := by
  obtain ⟨d, hfound, htext⟩ := Double.exists_ofDecimal?_integer hle h
  exact ⟨d, by rw [numberValue?_chars, hfound]; rfl, htext⟩

end DecimalLiteral

end CssBuild.Script
