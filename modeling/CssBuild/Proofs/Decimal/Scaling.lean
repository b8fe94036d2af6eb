import CssBuild.Decimal.Double
import Mathlib.Algebra.Group.Nat.Defs

/-!
# CssBuild.Proofs.Decimal.Scaling

The double nearest to a decimal depends on the value of the decimal only.

1. `nearest` looks at the ratio of its arguments (`nearest_eq_of_ratio`).
2. The exponents that `nearestDecimal` cuts short are those for which the
   fraction itself is too large or rounds to zero, so cutting them short does
   not change the double.
3. Zeros at the end of the digits can be moved into the exponent
   (`ofDecimal?_mul_pow`).
-/

namespace CssBuild.Double

/-! ## Ratios -/

theorem roundEven_mul (num den : Nat) {k : Nat} (hk : 0 < k) :
    roundEven (num * k) (den * k) = roundEven num den := by
  have htwice : 2 * (num * k % (den * k)) = 2 * (num % den) * k := by
    rw [Nat.mul_mod_mul_right, Nat.mul_assoc]
  simp only [roundEven, Nat.mul_div_mul_right _ _ hk, htwice, Nat.mul_lt_mul_right hk,
    Nat.mul_left_inj (Nat.ne_of_gt hk)]

theorem nearest_mul (num den : Nat) {k : Nat} (hk : 0 < k) :
    nearest (num * k) (den * k) = nearest num den := by
  have hscaled : num * k * scale = num * scale * k := by ac_rfl
  have hspacing (spacing : Nat) : (den * k) <<< spacing = (den <<< spacing) * k := by
    rw [Nat.shiftLeft_eq, Nat.shiftLeft_eq, Nat.mul_right_comm]
  simp only [nearest, hscaled, hspacing, Nat.mul_div_mul_right _ _ hk, roundEven_mul _ _ hk]

/-- Equal fractions have the same nearest double. -/
theorem nearest_eq_of_ratio {num num' den den' : Nat} (hden : 0 < den) (hden' : 0 < den')
    (h : num * den' = num' * den) : nearest num den = nearest num' den' := by
  rw [← nearest_mul num den hden', h, Nat.mul_comm den, nearest_mul num' den' hden]

/-! ## Exponents that are cut short -/

/-- The index of the double nearest to `digits * 10 ^ exponent`, whatever the exponent is. -/
def nearestPower (digits : Nat) (exponent : Int) : Nat :=
  nearest (digits * 10 ^ exponent.toNat) (10 ^ (-exponent).toNat)

theorem two_pow_mul_scale (n : Nat) : 2 ^ n * scale = 2 ^ (n + 1074) := by
  unfold scale
  generalize 1074 = k
  rw [Nat.shiftLeft_eq, Nat.one_mul, Nat.pow_add]

theorem two_pow_le_ten_pow (n : Nat) : 2 ^ (3 * n) ≤ 10 ^ n := by
  rw [Nat.pow_mul]
  exact Nat.pow_le_pow_left (by decide) n

/-- A fraction that is not below such a power of two is not finite. -/
theorem limit_le_nearest {num den n : Nat} (hden : 0 < den) (hn : 1203 ≤ n)
    (h : 2 ^ n * den ≤ num) : limit ≤ nearest num den := by
  have hscaled : 2 ^ (n + 1074) * den ≤ num * scale := by
    rw [← two_pow_mul_scale, Nat.mul_right_comm]
    exact Nat.mul_le_mul_right _ h
  have hdiv : 2 ^ (n + 1074) ≤ num * scale / den := (Nat.le_div_iff_mul_le hden).2 hscaled
  have hpos : num * scale / den ≠ 0 := Nat.ne_of_gt (Nat.lt_of_lt_of_le (Nat.two_pow_pos _) hdiv)
  have hlog : n + 1074 ≤ (num * scale / den).log2 := (Nat.le_log2 hpos).2 hdiv
  have hspacing : 2047 * binade ≤ ((num * scale / den).log2 - 52) * binade :=
    Nat.mul_le_mul_right _ (by omega)
  simp only [nearest]
  exact Nat.le_trans (Nat.le_trans (by decide) hspacing) (Nat.le_add_right _ _)

/-- A fraction below `2 ^ -1075` rounds to zero. -/
theorem nearest_eq_zero {num den : Nat} (h : 2 * (num * scale) < den) : nearest num den = 0 := by
  have hdiv : num * scale / den = 0 := Nat.div_eq_of_lt (by omega)
  have hmod : num * scale % den = num * scale := Nat.mod_eq_of_lt (by omega)
  have hround : roundEven (num * scale) den = 0 := by
    simp only [roundEven, hdiv, hmod]
    rw [if_neg (by omega), if_neg (by omega)]
  simp only [nearest, hdiv, Nat.shiftLeft_eq]
  simpa using hround

theorem limit_le_nearestPower {digits : Nat} {exponent : Int} (hdigits : digits ≠ 0)
    (h : exponent > 400) : limit ≤ nearestPower digits exponent := by
  have hneg : (-exponent).toNat = 0 := by omega
  have hpow : 2 ^ (3 * exponent.toNat) * 1 ≤ digits * 10 ^ exponent.toNat := by
    calc 2 ^ (3 * exponent.toNat) * 1 = 2 ^ (3 * exponent.toNat) := Nat.mul_one _
      _ ≤ 10 ^ exponent.toNat := two_pow_le_ten_pow _
      _ ≤ digits * 10 ^ exponent.toNat :=
        Nat.le_mul_of_pos_left _ (Nat.pos_of_ne_zero hdigits)
  rw [nearestPower, hneg, Nat.pow_zero]
  exact limit_le_nearest Nat.one_pos (by omega) hpow

theorem nearestPower_eq_zero {digits : Nat} {exponent : Int}
    (h : exponent < -(400 + (digits.log2 : Int))) : nearestPower digits exponent = 0 := by
  have hpos : exponent.toNat = 0 := by omega
  have hdigits : digits < 2 ^ (digits.log2 + 1) := Nat.lt_log2_self
  rw [nearestPower, hpos, Nat.pow_zero, Nat.mul_one]
  apply nearest_eq_zero
  calc 2 * (digits * scale) < 2 * (2 ^ (digits.log2 + 1) * scale) :=
        Nat.mul_lt_mul_of_pos_left (Nat.mul_lt_mul_of_pos_right hdigits scale_pos) (by decide)
    _ = 2 ^ (digits.log2 + 1 + 1074 + 1) := by
        rw [two_pow_mul_scale]
        exact Nat.pow_succ'.symm
    _ ≤ 2 ^ (3 * (-exponent).toNat) := Nat.pow_le_pow_right (by decide) (by omega)
    _ ≤ 10 ^ (-exponent).toNat := two_pow_le_ten_pow _

/-- The leading digit of a decimal that is neither zero nor infinite as a double has a small power
of ten. -/
theorem natAbs_leading_le {digits length : Nat} {exponent : Int} (hlow : 10 ^ length ≤ digits)
    (hhigh : digits < 10 ^ (length + 1)) (hne : nearestPower digits exponent ≠ 0)
    (hfinite : nearestPower digits exponent < limit) : (exponent + length).natAbs ≤ 400 := by
  have hbelow : exponent + length ≤ 400 := by
    refine Int.not_lt.1 fun hlarge => ?_
    obtain ⟨k, hk⟩ := Int.eq_ofNat_of_zero_le (show 0 ≤ exponent + length by omega)
    refine Nat.not_le_of_lt hfinite (limit_le_nearest (Nat.pow_pos (by decide))
      (show 1203 ≤ 3 * k by omega) ?_)
    calc 2 ^ (3 * k) * 10 ^ (-exponent).toNat ≤ 10 ^ k * 10 ^ (-exponent).toNat :=
          Nat.mul_le_mul_right _ (two_pow_le_ten_pow k)
      _ = 10 ^ (k + (-exponent).toNat) := (Nat.pow_add ..).symm
      _ ≤ 10 ^ (length + exponent.toNat) := Nat.pow_le_pow_right (by decide) (by omega)
      _ = 10 ^ length * 10 ^ exponent.toNat := Nat.pow_add ..
      _ ≤ digits * 10 ^ exponent.toNat := Nat.mul_le_mul_right _ hlow
  have habove : -400 ≤ exponent + length := by
    refine Int.not_lt.1 fun hsmall => hne (nearest_eq_zero ?_)
    have hpos : exponent.toNat = 0 := by omega
    obtain ⟨k, hk⟩ := Int.eq_ofNat_of_zero_le (show 0 ≤ -(exponent + length + 1) by omega)
    have hscale (n : Nat) (hn : n + 1074 ≤ 3 * k) : 2 ^ n * scale ≤ 10 ^ k := by
      rw [two_pow_mul_scale]
      exact Nat.le_trans (Nat.pow_le_pow_right (by decide) hn) (two_pow_le_ten_pow k)
    rw [hpos, Nat.pow_zero, Nat.mul_one, Nat.mul_left_comm]
    calc digits * (2 * scale) ≤ digits * 10 ^ k := Nat.mul_le_mul_left _ (hscale 1 (by omega))
      _ < 10 ^ (length + 1) * 10 ^ k := Nat.mul_lt_mul_of_pos_right hhigh (Nat.pow_pos (by decide))
      _ = 10 ^ (length + 1 + k) := (Nat.pow_add ..).symm
      _ = 10 ^ (-exponent).toNat := congrArg _ (by omega)
  omega

/-- Cutting an exponent short changes the index at most where neither is finite. -/
theorem nearestDecimal_eq {digits : Nat} (hdigits : digits ≠ 0) (exponent : Int) :
    nearestDecimal digits exponent = nearestPower digits exponent ∨
      (limit ≤ nearestDecimal digits exponent ∧ limit ≤ nearestPower digits exponent) := by
  rw [nearestDecimal, if_neg hdigits]
  by_cases hlarge : exponent > 400
  · rw [if_pos hlarge]
    exact .inr ⟨Nat.le_refl _, limit_le_nearestPower hdigits hlarge⟩
  rw [if_neg hlarge]
  by_cases hsmall : exponent < -(400 + (digits.log2 : Int))
  · rw [if_pos hsmall, nearestPower_eq_zero hsmall]
    exact .inl rfl
  rw [if_neg hsmall]
  left
  by_cases hsign : 0 ≤ exponent
  · have hneg : (-exponent).toNat = 0 := by omega
    rw [if_pos hsign, nearestPower, hneg, Nat.pow_zero]
    rfl
  · have hpos : exponent.toNat = 0 := by omega
    rw [if_neg hsign, nearestPower, hpos, Nat.pow_zero, Nat.mul_one]
    rfl

/-! ## Zeros at the end of the digits -/

theorem nearestPower_mul_pow (digits k : Nat) (exponent : Int) :
    nearestPower (digits * 10 ^ k) (exponent - k) = nearestPower digits exponent := by
  apply nearest_eq_of_ratio (Nat.pow_pos (by decide)) (Nat.pow_pos (by decide))
  have hpowers : k + (exponent - k).toNat + (-exponent).toNat =
      exponent.toNat + (-(exponent - k)).toNat := by omega
  rw [Nat.mul_assoc, Nat.mul_assoc, Nat.mul_assoc, ← Nat.pow_add, ← Nat.pow_add, ← Nat.pow_add,
    ← hpowers, Nat.add_assoc]

theorem ofIndex?_eq_none {negative : Bool} {index : Nat} (h : limit ≤ index) :
    ofIndex? negative index = none := dif_neg (Nat.not_lt.2 h)

theorem eq_of_ofIndex?_eq {negative : Bool} {i j : Nat} (hj : j < limit)
    (h : ofIndex? negative i = ofIndex? negative j) : i = j := by
  have hfound : ofIndex? negative j = some ⟨negative, j, hj⟩ := dif_pos hj
  rw [hfound, ofIndex?] at h
  split at h
  · exact congrArg Double.index (Option.some.inj h)
  · cases h

theorem ofDecimal?_eq_ofIndex? (negative : Bool) {digits : Nat} (hdigits : digits ≠ 0)
    (exponent : Int) :
    ofDecimal? negative digits exponent = ofIndex? negative (nearestPower digits exponent) := by
  rw [ofDecimal?]
  obtain h | ⟨h, h'⟩ := nearestDecimal_eq hdigits exponent
  · rw [h]
  · rw [ofIndex?_eq_none h, ofIndex?_eq_none h']

/-- Zeros at the end of the digits can be moved into the exponent. -/
theorem ofDecimal?_mul_pow (negative : Bool) (digits k : Nat) (exponent : Int) :
    ofDecimal? negative (digits * 10 ^ k) (exponent - k) =
      ofDecimal? negative digits exponent := by
  by_cases hdigits : digits = 0
  · simp [hdigits, ofDecimal?, nearestDecimal]
  · have hmore : digits * 10 ^ k ≠ 0 :=
      Nat.mul_ne_zero hdigits (Nat.ne_of_gt (Nat.pow_pos (by decide)))
    rw [ofDecimal?_eq_ofIndex? negative hmore, ofDecimal?_eq_ofIndex? negative hdigits,
      nearestPower_mul_pow]

/-- The sign of a decimal is that of its double. -/
theorem ofDecimal?_neg (negative : Bool) (digits : Nat) (exponent : Int) :
    ofDecimal? (!negative) digits exponent = (ofDecimal? negative digits exponent).map neg := by
  rw [ofDecimal?, ofDecimal?, ofIndex?, ofIndex?]
  split
  · rfl
  · rfl

end CssBuild.Double
