import CssBuild.Decimal.Shortest

/-!
# CssBuild.Decimal.Layout

The text of a double.

1. The digits are those of the shortest decimal that reads back, without
   zeros at their end.
2. A layout says for which powers of ten of the leading digit the number is
   written positionally, always with a fraction (`100.0`); otherwise it is
   written with an exponent whose sign is always there (`1e-7`, `1e+16`).
3. A document layout writes powers from `-5` to `15` positionally, a plain
   layout writes every power positionally.
-/

namespace CssBuild

/-- Which numbers are written without an exponent. -/
structure Layout where
  /-- Whether a number whose leading digit has this power of ten is positional. -/
  positional : Int → Bool

namespace Layout

/-- Positional from `0.00001` up to below `10 ^ 16`. -/
def document : Layout := ⟨fun power => -5 ≤ power && power ≤ 15⟩

/-- Positional throughout. -/
def plain : Layout := ⟨fun _ => true⟩

/-- The decimal digits of a number. -/
def digits (n : Nat) : List Char := Nat.toDigits 10 n

/-- A number without the zeros at its end, as digits, and how many zeros there were; at most
`fuel` are taken off. -/
def dropZeros : (fuel : Nat) → Nat → Nat × Nat
  | 0, n => (n, 0)
  | fuel + 1, n =>
    if n % 10 = 0 then
      let shorter := dropZeros fuel (n / 10)
      (shorter.1, shorter.2 + 1)
    else (n, 0)

/-- The digits `ds` with the point after the first `point` of them, and at least one digit on
either side of it. -/
def positionalText (ds : List Char) (point : Int) : List Char :=
  if point ≤ 0 then '0' :: '.' :: (List.replicate (-point).toNat '0' ++ ds)
  else if (ds.length : Int) ≤ point then
    ds ++ List.replicate (point.toNat - ds.length) '0' ++ ['.', '0']
  else ds.take point.toNat ++ '.' :: ds.drop point.toNat

/-- The digits `ds` as a number between one and ten times a power of ten. -/
def scientificText (ds : List Char) (power : Int) : List Char :=
  let mantissa := match ds with
    | first :: second :: rest => first :: '.' :: second :: rest
    | _ => ds
  let sign := if power < 0 then '-' else '+'
  mantissa ++ 'e' :: sign :: digits power.natAbs

/-- The text of a decimal with nonzero digits. -/
def decimalText (layout : Layout) (d : Decimal) : List Char :=
  let stripped := dropZeros (digits d.digits).length d.digits
  let ds := digits stripped.1
  let point : Int := d.exponent + stripped.2 + ds.length
  if layout.positional (point - 1) then positionalText ds point else scientificText ds (point - 1)

/-- The text of a magnitude. -/
def magnitudeText (layout : Layout) (index : Nat) : List Char :=
  if index = 0 then ['0', '.', '0'] else layout.decimalText (Decimal.shortest index)

/-- The text of a double. -/
def text (layout : Layout) (d : Double) : List Char :=
  if d.negative then '-' :: layout.magnitudeText d.index else layout.magnitudeText d.index

end Layout

end CssBuild
