/-!
# CssBuild.Decimal.Double

Finite binary64 numbers as exact values.

1. A double is a sign and the index of its magnitude: magnitudes are listed
   in increasing order from zero, so index `0` is zero, index `1` the least
   subnormal, and the indices below `Double.limit` are the finite ones.
2. `Double.units` gives the value at an index as a multiple of `2 ^ -1074`,
   the spacing of the least magnitudes; every finite magnitude is such a
   multiple.
3. `Double.nearest` is the index of the double nearest to a fraction, a tie
   going to the even index; `nearest_units` says that it finds every magnitude
   from its own value.
-/

namespace CssBuild

/-- A finite binary64 number. -/
structure Double where
  /-- Whether the sign bit is set. -/
  negative : Bool
  /-- The index of the magnitude in the increasing list of magnitudes. -/
  index : Nat
  /-- The magnitude is finite. -/
  finite : index < 0x7FF0000000000000
deriving DecidableEq

namespace Double

/-- The first index that is not finite. -/
def limit : Nat := 0x7FF0000000000000

/-- How many magnitudes share a power of two: `2 ^ 52`. -/
def binade : Nat := 0x10000000000000

/-- The value at an index, as a multiple of `2 ^ -1074`. -/
def units (index : Nat) : Nat :=
  if index < binade then index
  else (binade + index % binade) <<< (index / binade - 1)

/-- How many units make one. -/
def scale : Nat := 1 <<< 1074

/-- The integer nearest to `num / den`, a tie going to the even one. -/
def roundEven (num den : Nat) : Nat :=
  let floor := num / den
  let twice := 2 * (num % den)
  if den < twice then floor + 1
  else if twice = den then floor + floor % 2
  else floor

/-- The index of the double nearest to `num / den`, a tie going to the even one.
It can reach past `limit` when the fraction is too large. -/
def nearest (num den : Nat) : Nat :=
  let scaled := num * scale
  let spacing := (scaled / den).log2 - 52
  spacing * binade + roundEven scaled (den <<< spacing)

/-- The double with a magnitude index, when that is finite. -/
def ofIndex? (negative : Bool) (index : Nat) : Option Double :=
  if h : index < 0x7FF0000000000000 then some ⟨negative, index, h⟩ else none

/-- Zero of either sign. -/
def zero (negative : Bool) : Double := ⟨negative, 0, by decide⟩

/-- The number with the other sign. -/
def neg (d : Double) : Double := { d with negative := !d.negative }

/-- Equality of values: the two zeros are equal. -/
def valueEq (a b : Double) : Bool :=
  a.index == b.index && (a.negative == b.negative || a.index == 0)

/-- The index of the double nearest to `digits * 10 ^ exponent`. Exponents so far out that the
answer is certain are cut short. -/
def nearestDecimal (digits : Nat) (exponent : Int) : Nat :=
  if digits = 0 then 0
  else if exponent > 400 then limit
  else if exponent < -(400 + (digits.log2 : Int)) then 0
  else if 0 ≤ exponent then nearest (digits * Nat.pow 10 exponent.toNat) 1
  else nearest digits (Nat.pow 10 (-exponent).toNat)

/-- The double nearest to a signed decimal, unless it is too large. -/
def ofDecimal? (negative : Bool) (digits : Nat) (exponent : Int) : Option Double :=
  ofIndex? negative (nearestDecimal digits exponent)

/-! ## Reading a value back -/

theorem roundEven_of_dvd (n : Nat) {den : Nat} (h : 0 < den) : roundEven (n * den) den = n := by
  simp [roundEven, Nat.mul_div_cancel _ h]
  omega

theorem scale_pos : 0 < scale := by
  unfold scale
  generalize 1074 = n
  rw [Nat.shiftLeft_eq, Nat.one_mul]
  exact Nat.two_pow_pos n

private theorem mul_regroup (a b c d : Nat) : a * b * c * d = a * (d * c * b) := by ac_rfl

/-- Every magnitude is found again from its own value. -/
theorem nearest_units (index k : Nat) (hk : 0 < k) :
    nearest (units index * k) (scale * k) = index := by
  have binade_eq : binade = 2 ^ 52 := by decide
  have hpos : 0 < scale * k := Nat.mul_pos scale_pos hk
  have hs : units index * k * scale / (scale * k) = units index := by
    rw [show units index * k * scale = units index * (scale * k) by
      rw [Nat.mul_assoc, Nat.mul_comm k]]
    exact Nat.mul_div_cancel _ hpos
  have hround (spacing m : Nat) (hu : units index = m * 2 ^ spacing) :
      roundEven (units index * k * scale) (scale * k * 2 ^ spacing) = m := by
    rw [hu, mul_regroup m]
    exact roundEven_of_dvd m (Nat.mul_pos hpos (Nat.two_pow_pos _))
  simp only [nearest, hs, Nat.shiftLeft_eq]
  by_cases hi : index < binade
  · have hu : units index = index := if_pos hi
    have hlog : index.log2 - 52 = 0 := by
      by_cases h0 : index = 0
      · subst h0; rfl
      · have := (Nat.log2_lt h0).2 (binade_eq ▸ hi)
        omega
    rw [hu, hlog, ← hu, hround 0 index (by rw [hu, Nat.pow_zero, Nat.mul_one])]
    omega
  · have hq : 1 ≤ index / binade := (Nat.one_le_div_iff (by decide)).2 (Nat.le_of_not_lt hi)
    have hm : index % binade < 2 ^ 52 := Nat.mod_lt _ (by decide)
    have hu : units index = (2 ^ 52 + index % binade) * 2 ^ (index / binade - 1) := by
      rw [units, if_neg hi, Nat.shiftLeft_eq, ← binade_eq]
    have hlog : (units index).log2 = 52 + (index / binade - 1) := by
      rw [hu]
      apply (Nat.log2_eq_iff
        (Nat.ne_of_gt (Nat.mul_pos (by omega) (Nat.two_pow_pos _)))).2
      constructor
      · rw [Nat.pow_add]
        exact Nat.mul_le_mul_right _ (by omega)
      · rw [show 52 + (index / binade - 1) + 1 = 53 + (index / binade - 1) by omega, Nat.pow_add]
        exact Nat.mul_lt_mul_of_pos_right (by omega) (Nat.two_pow_pos _)
    rw [hlog, show 52 + (index / binade - 1) - 52 = index / binade - 1 by omega,
      hround (index / binade - 1) (2 ^ 52 + index % binade) hu, ← binade_eq]
    have := Nat.div_add_mod index binade
    have : (index / binade - 1) * binade + binade = binade * (index / binade) := by
      rw [← Nat.succ_mul, Nat.succ_eq_add_one, Nat.sub_add_cancel hq, Nat.mul_comm]
    omega

/-- Only the magnitude zero has the value zero. -/
theorem index_eq_zero {index : Nat} (h : units index = 0) : index = 0 := by
  have found := nearest_units index 1 Nat.one_pos
  rw [h] at found
  simpa [nearest, roundEven] using found.symm

end Double

end CssBuild
