import CssBuild.Decimal.Double

/-!
# CssBuild.Decimal.Stepwise

Decimals as doubles by way of other doubles.

1. As many digits of a decimal are taken as write a number of 64 bits. Digits
   before the point that do not fit count as powers of ten, those after it are
   dropped.
2. That number and the power of ten are rounded each, and their product or
   quotient is rounded once more (`Double.scaled?`). So the double that is
   found need not be the nearest one.
-/

namespace CssBuild

/-- How a decimal becomes a double. -/
inductive Rounding where
  /-- The nearest double is found. -/
  | nearest
  /-- The digits and the power of ten are rounded first. -/
  | stepwise
deriving DecidableEq

namespace Double

/-- The first number that is too large for digits taken together. -/
def significandLimit : Nat := 0x10000000000000000

/-- A number with more digits behind it, as many as fit, and the digits that do not. -/
def takeDigits : (taken : Nat) → List Char → Nat × List Char
  | taken, [] => (taken, [])
  | taken, c :: rest =>
    let next := taken * 10 + (c.toNat - '0'.toNat)
    if next < significandLimit then takeDigits next rest else (taken, c :: rest)

/-- The index of the double nearest to the product of two magnitudes. -/
def product (a b : Nat) : Nat := nearest (units a * units b) (scale * scale)

/-- The index of the double nearest to the quotient of two magnitudes. -/
def quotient (a b : Nat) : Nat := nearest (units a) (units b)

/-- The largest exponent of a power of ten that is finite. -/
def maxPower : Nat := 308

/-- The index of the double nearest to a power of ten. -/
def power (exponent : Nat) : Nat := nearest (Nat.pow 10 exponent) 1

/-- A magnitude divided some times by the largest power of ten. -/
def lowered : (times : Nat) → (index : Nat) → Nat
  | 0, index => index
  | times + 1, index => if index = 0 then 0 else lowered times (quotient index (power maxPower))

/-- A number times a power of ten, both rounded before they are multiplied or divided, unless the
result is too large. A power that is too small to be finite is divided by in steps. -/
def scaled? (negative : Bool) (significand : Nat) (exponent : Int) : Option Double :=
  let index := nearest significand 1
  if 0 ≤ exponent then
    if exponent ≤ maxPower then ofIndex? negative (product index (power exponent.toNat))
    else if index = 0 then some (zero negative)
    else none
  else
    let below := (-exponent).toNat
    let times := (below - 1) / maxPower
    ofIndex? negative (quotient (lowered times index) (power (below - times * maxPower)))

end Double

end CssBuild
