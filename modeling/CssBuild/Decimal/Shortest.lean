import CssBuild.Decimal.Double

/-!
# CssBuild.Decimal.Shortest

The shortest decimal that names a double.

1. A `Decimal` is a whole number of powers of ten.
2. With one, two, … seventeen significant digits, the two decimals on either
   side of the value are tried: the first grid on which one of them reads back
   wins, of two that read back the nearer one, and of two equally near the
   even one.
3. Where no grid has a hit the exact expansion of the value stands in, so
   `shortest_reads_back` holds for every magnitude.
-/

namespace CssBuild

/-- The number `digits * 10 ^ exponent`. -/
structure Decimal where
  /-- The significant digits, as a number. -/
  digits : Nat
  /-- The power of ten. -/
  exponent : Int
deriving DecidableEq, Repr

namespace Decimal

/-- The index of the double nearest to a decimal. -/
def index (d : Decimal) : Nat := Double.nearestDecimal d.digits d.exponent

/-- A multiple of `2 ^ -places`, with that many decimal places. -/
def ofHalvings (multiple places : Nat) : Decimal := ⟨multiple * Nat.pow 5 places, -(places : Int)⟩

/-- The exact value at an index. -/
def exact (index : Nat) : Decimal := ofHalvings (Double.units index) 1074

/-- Whether the value at an index is at least a power of ten. -/
def reaches (index : Nat) (power : Int) : Bool :=
  if 0 ≤ power then Nat.pow 10 power.toNat * Double.scale ≤ Double.units index
  else Double.scale ≤ Double.units index * Nat.pow 10 (-power).toNat

/-- The power of ten of the leading digit of a nonzero value, from its power of two. -/
def leadingExponent (index : Nat) : Int :=
  let guess := (((Double.units index).log2 : Int) - 1074) * 30103 / 100000
  if reaches index (guess + 1) then guess + 1 else guess

/-- The decimals with `count` significant digits on either side of a value, each with twice its
distance from the value on a common scale, nearest first; of two equally near the even one is
first. -/
def neighbours (index count : Nat) : List Decimal :=
  let place := leadingExponent index + 1 - count
  let num := if 0 ≤ place then Double.units index
    else Double.units index * Nat.pow 10 (-place).toNat
  let den := if 0 ≤ place then Double.scale * Nat.pow 10 place.toNat else Double.scale
  let below := num / den
  let twice := 2 * (num % den)
  let low : Decimal := ⟨below, place⟩
  let high : Decimal := ⟨below + 1, place⟩
  if twice < den ∨ (twice = den ∧ below % 2 = 0) then [low, high] else [high, low]

/-- The first neighbour that reads back, trying `count` digits and then more. -/
def search (index : Nat) : (more count : Nat) → Option Decimal
  | 0, _ => none
  | more + 1, count =>
    ((neighbours index count).find? fun d => d.index == index).or (search index more (count + 1))

/-- The shortest decimal that reads back as the magnitude at `index`. -/
def shortest (index : Nat) : Decimal := (search index 17 1).getD (exact index)

/-! ## Reading back -/

theorem index_of_search {index more count : Nat} {d : Decimal}
    (h : search index more count = some d) : d.index = index := by
  induction more generalizing count with
  | zero => simp [search] at h
  | succ more ih =>
    rw [search, Option.or_eq_some_iff] at h
    obtain hit | ⟨-, later⟩ := h
    · simpa using List.find?_some hit
    · exact ih later

/-- A negative power of ten makes a decimal a fraction, unless it is far out. -/
theorem index_of_fraction {digits places : Nat} (hd : digits ≠ 0)
    (near : places ≤ 400 + digits.log2) :
    index ⟨digits, -(places : Int)⟩ = Double.nearest digits (Nat.pow 10 places) := by
  have hlarge : ¬ (-(places : Int) > 400) := by omega
  have hsmall : ¬ (-(places : Int) < -(400 + (digits.log2 : Int))) := by omega
  rw [index, Double.nearestDecimal, if_neg hd, if_neg hlarge, if_neg hsmall]
  by_cases h : 0 ≤ -(places : Int)
  · obtain rfl : places = 0 := by omega
    simp
  · rw [if_neg h, Int.neg_neg, Int.toNat_natCast]

theorem le_log2_mul_pow (n : Nat) {m : Nat} (hm : m ≠ 0) : n ≤ (m * Nat.pow 5 n).log2 := by
  have hpow : 0 < 5 ^ n := Nat.pow_pos (by decide)
  refine (Nat.le_log2 (Nat.mul_ne_zero hm (Nat.ne_of_gt hpow))).2 ?_
  exact Nat.le_trans (Nat.pow_le_pow_left (by decide) n)
    (Nat.le_mul_of_pos_left _ (Nat.pos_of_ne_zero hm))

/-- Where the units are halvings of one, the expansion of a value names its index. -/
theorem index_ofHalvings (value places : Nat)
    (h : Nat.pow 10 places = Double.scale * Nat.pow 5 places) :
    (ofHalvings (Double.units value) places).index = value := by
  have hpow : 0 < Nat.pow 5 places := Nat.pow_pos (by decide)
  rw [ofHalvings]
  by_cases h0 : Double.units value = 0
  · rw [h0, Nat.zero_mul, Double.index_eq_zero h0, index, Double.nearestDecimal, if_pos rfl]
  · have hlog := Nat.le_trans (le_log2_mul_pow places h0) (Nat.le_add_left _ 400)
    rw [index_of_fraction (Nat.mul_ne_zero h0 (Nat.ne_of_gt hpow)) hlog, h]
    exact Double.nearest_units value _ hpow

theorem index_exact (value : Nat) : (exact value).index = value :=
  index_ofHalvings value 1074 (by decide +kernel)

/-- The shortest decimal reads back as the magnitude that it was chosen for. -/
theorem shortest_reads_back (value : Nat) : (shortest value).index = value := by
  unfold shortest
  cases found : search value 17 1 with
  | some d => exact index_of_search found
  | none => exact index_exact value

end Decimal

end CssBuild
