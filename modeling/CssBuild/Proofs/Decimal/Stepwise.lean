import CssBuild.Proofs.Decimal.Integers

/-!
# CssBuild.Proofs.Decimal.Stepwise

Decimals that are rounded correctly step by step.

1. Integers up to `2 ^ 53` and the powers of ten up to `10 ^ 22` are doubles, so
   nothing is rounded before they are multiplied or divided, and the only
   rounding left finds the nearest double (`scaled?_eq_ofDecimal?`).
2. All digits of a numeral are taken where they write a number of 64 bits. So a
   numeral without an exponent that has no more than fifteen characters is
   rounded correctly (`roundedCorrectly_of_length`).
-/

namespace CssBuild

namespace Double

/-! ## Steps that do not round -/

theorem units_nearest {n : Nat} (hle : n ≤ 2 ^ 53) : units (nearest n 1) = n * scale := by
  by_cases hn : n = 0
  · rw [hn, nearest_zero, Nat.zero_mul]
    rfl
  · obtain ⟨index, hunits, -⟩ := exists_units hn hle
    rw [nearest_of_units hunits, hunits]

theorem units_power : ∀ k ≤ 22, units (power k) = 10 ^ k * scale := by decide +kernel

/-- The product of two integers that are doubles is rounded once. -/
theorem product_of_units {a b m n : Nat} (ha : units a = m * scale) (hb : units b = n * scale) :
    product a b = nearest (m * n) 1 := by
  have hregroup : m * scale * (n * scale) = m * n * (scale * scale) := by ac_rfl
  rw [product, ha, hb, hregroup, ← nearest_mul (m * n) 1 (Nat.mul_pos scale_pos scale_pos),
    Nat.one_mul]

/-- The quotient of two integers that are doubles is rounded once. -/
theorem quotient_of_units {a b m n : Nat} (ha : units a = m * scale) (hb : units b = n * scale) :
    quotient a b = nearest m n := by
  rw [quotient, ha, hb, nearest_mul m n scale_pos]

theorem nearestDecimal_of_nonneg (significand : Nat) {k : Nat} (hk : k ≤ 22) :
    nearestDecimal significand k = nearest (significand * 10 ^ k) 1 := by
  rw [nearestDecimal]
  split
  · next hzero => rw [hzero, Nat.zero_mul, nearest_zero]
  · rw [if_neg (by omega), if_neg (by omega), if_pos (by omega), Int.toNat_natCast]
    rfl

theorem nearestDecimal_of_neg (significand : Nat) {k : Nat} (hpos : 0 < k) (hk : k ≤ 22) :
    nearestDecimal significand (-k) = nearest significand (10 ^ k) := by
  rw [nearestDecimal]
  split
  · next hzero =>
    rw [hzero, nearest_eq_zero]
    rw [Nat.zero_mul, Nat.mul_zero]
    exact Nat.pow_pos (by decide)
  · rw [if_neg (by omega), if_neg (by omega), if_neg (by omega), Int.neg_neg, Int.toNat_natCast]
    rfl

/-- An integer up to `2 ^ 53`, multiplied or divided by a power of ten that is a double, is rounded
to the nearest double. -/
theorem scaled?_eq_ofDecimal? (negative : Bool) {significand : Nat} {exponent : Int}
    (hsignificand : significand ≤ 2 ^ 53) (hlow : -22 ≤ exponent) (hhigh : exponent ≤ 22) :
    scaled? negative significand exponent = ofDecimal? negative significand exponent := by
  have hunits := units_nearest hsignificand
  rw [scaled?, ofDecimal?]
  by_cases hsign : 0 ≤ exponent
  · obtain ⟨k, rfl⟩ := Int.eq_ofNat_of_zero_le hsign
    have hk : k ≤ 22 := by omega
    have hmax : (k : Int) ≤ maxPower := by
      rw [maxPower]
      omega
    rw [if_pos hsign, if_pos hmax, Int.toNat_natCast,
      product_of_units hunits (units_power k hk), nearestDecimal_of_nonneg significand hk]
  · obtain ⟨k, rfl⟩ : ∃ k : Nat, exponent = -k := ⟨(-exponent).toNat, by omega⟩
    have hk : k ≤ 22 := by omega
    have htimes : (k - 1) / maxPower = 0 := Nat.div_eq_of_lt (by rw [maxPower]; omega)
    rw [if_neg hsign, nearestDecimal_of_neg significand (by omega) hk]
    simp only [Int.neg_neg, Int.toNat_natCast, htimes, lowered, Nat.zero_mul, Nat.sub_zero,
      quotient_of_units hunits (units_power k hk)]

end Double

namespace Json

/-! ## Numerals -/

/-- Digits that write a number of 64 bits are all taken. -/
theorem takeDigits_eq {ds : List Char} {taken : Nat}
    (h : Nat.ofDigitChars 10 ds taken < Double.significandLimit) :
    Double.takeDigits taken ds = (Nat.ofDigitChars 10 ds taken, []) := by
  induction ds generalizing taken with
  | nil => rfl
  | cons c ds ih =>
    rw [Nat.ofDigitChars_cons, Nat.mul_comm] at h ⊢
    have hnext := Nat.lt_of_le_of_lt (WrittenNumeral.le_ofDigitChars ds _) h
    rw [Double.takeDigits]
    simp only [if_pos hnext, ih h]

theorem ofDigitChars_lt {ds : List Char} (h : ∀ c ∈ ds, isDigit c = true) (init : Nat) :
    Nat.ofDigitChars 10 ds init < (init + 1) * 10 ^ ds.length := by
  induction ds generalizing init with
  | nil => exact Nat.lt_of_lt_of_le (Nat.lt_succ_self init) (Nat.le_of_eq (Nat.mul_one _).symm)
  | cons c ds ih =>
    obtain ⟨hc, hds⟩ := List.forall_mem_cons.1 h
    have hvalue : c.toNat - '0'.toNat < 10 :=
      isDigit_cases (p := fun c => c.toNat - '0'.toNat < 10) (by decide) hc
    rw [Nat.ofDigitChars_cons, List.length_cons, Nat.pow_succ']
    refine Nat.lt_of_lt_of_le (ih hds _) ?_
    rw [← Nat.mul_assoc]
    exact Nat.mul_le_mul_right _ (by omega)

/-- A numeral with digits for a number up to `2 ^ 53` and a small power of ten is rounded to the
nearest double. -/
theorem Numeral.stepwise?_eq_toDouble? {n : Numeral} {power : Int}
    (hdigits : digitsValue (n.whole ++ n.fraction.getD []) ≤ 2 ^ 53)
    (hpower : n.exponent.getD 0 - (n.fraction.getD []).length = power) (hlow : -22 ≤ power)
    (hhigh : power ≤ 22) (negative : Bool) : n.stepwise? negative = n.toDouble? negative := by
  have hall : digitsValue (n.whole ++ n.fraction.getD []) < Double.significandLimit :=
    Nat.lt_of_le_of_lt hdigits (by decide)
  rw [digitsValue, Nat.ofDigitChars_append] at hall hdigits
  have hwhole := Nat.lt_of_le_of_lt (WrittenNumeral.le_ofDigitChars _ _) hall
  rw [stepwise?, toDouble?, digitsValue, Nat.ofDigitChars_append]
  simp only [takeDigits_eq hwhole, takeDigits_eq hall, List.length_nil, Nat.sub_zero,
    Int.natCast_zero, Int.add_zero, hpower]
  exact Double.scaled?_eq_ofDecimal? negative hdigits hlow hhigh

theorem WrittenNumeral.digits_numeral (n : WrittenNumeral) :
    (∀ c ∈ n.whole ++ n.fraction.getD [], isDigit c = true) ∧
      (n.whole ++ n.fraction.getD []).length ≤ n.chars.length := by
  rw [chars]
  cases hfraction : n.fraction with
  | none => simpa using n.isWhole.2
  | some digits =>
    refine ⟨?_, by simp [fractionChars]; omega⟩
    exact List.forall_mem_append.2 ⟨n.isWhole.2, (n.isFraction digits hfraction).2⟩

/-- A numeral without an exponent is rounded correctly if it has no more than fifteen characters. -/
theorem roundedCorrectly_of_length {t : List Char} (hlength : t.length ≤ 15)
    (hplain : ∀ c ∈ t, marksExponent c = false) : RoundedCorrectly t := by
  refine fun found => exists_congr fun negative => exists_congr fun n => and_congr_left ?_
  rintro rfl
  have hchars : n.chars.length ≤ 15 ∧ ∀ c ∈ n.chars, marksExponent c = false := by
    cases negative with
    | false => exact ⟨hlength, hplain⟩
    | true => exact ⟨Nat.le_of_succ_le hlength, (List.forall_mem_cons.1 hplain).2⟩
  have hexponent : n.exponent = none := by
    cases he : n.exponent with
    | none => rfl
    | some e =>
      have hmark := hchars.2 e.mark
        (by simp [WrittenNumeral.chars, he, WrittenNumeral.exponentChars, WrittenExponent.chars])
      rcases e.isMark with h | h <;> rw [h] at hmark <;> cases hmark
  obtain ⟨hdigit, hle⟩ := n.digits_numeral
  have hcount : (n.whole ++ n.fraction.getD []).length ≤ 15 := Nat.le_trans hle hchars.1
  have hvalue : digitsValue (n.whole ++ n.fraction.getD []) ≤ 2 ^ 53 :=
    calc digitsValue (n.whole ++ n.fraction.getD [])
      _ ≤ (0 + 1) * 10 ^ (n.whole ++ n.fraction.getD []).length :=
        Nat.le_of_lt (ofDigitChars_lt hdigit 0)
      _ ≤ 1 * 10 ^ 15 := Nat.mul_le_mul_left _ (Nat.pow_le_pow_right (by decide) hcount)
      _ ≤ 2 ^ 53 := by decide
  have hsame : n.numeral.stepwise? negative = n.numeral.toDouble? negative := by
    rw [List.length_append] at hcount
    refine Numeral.stepwise?_eq_toDouble? hvalue rfl ?_ ?_ negative
    all_goals
      simp only [WrittenNumeral.numeral, hexponent, Option.map_none, Option.getD_none]
      omega
  simp only [Numeral.toNumber?, Numeral.rounded?, hsame]

end Json

end CssBuild
