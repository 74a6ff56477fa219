import Ecma.Number.Double

/-!
# Decimal numbers and doubles

A `Decimal` is a count of powers of ten. Reading one gives the nearest double.
Writing a double picks the decimal with the **fewest digits that reads back** as
that double, and among those the nearest to it, a tie going to the even digit.

The search is exact. The reals that read back as a finite double form an interval
around it, whose ends belong to it if the significand is even. On the grid of
numbers with `k` digits only the two neighbours of the double can be the nearest
point of the interval, so the first `k` for which one of them falls inside
decides. Seventeen digits always suffice; the double's own finite expansion
closes the search.
-/

namespace Ecma

/-- The number `digits * 10 ^ exponent`. -/
structure Decimal where
  digits : Nat
  exponent : Int
  deriving DecidableEq, Repr

/-- Number of decimal digits; zero has none. -/
def decimalLength (n : Nat) : Nat := if n = 0 then 0 else (Nat.toDigits 10 n).length

namespace Decimal

/-- Move trailing zeros of the digits to the exponent, at most `fuel` of them. -/
def strip : Nat → Decimal → Decimal
  | 0, d => d
  | fuel + 1, d =>
    if d.digits % 10 = 0 then strip fuel ⟨d.digits / 10, d.exponent + 1⟩ else d

/-- The same number without trailing zeros in its digits. -/
def normalize (d : Decimal) : Decimal := strip (decimalLength d.digits) d

/-- Powers of ten from which on every decimal is beyond the doubles. -/
def overflowPower : Int := 310

/-- Powers of ten below which every decimal rounds to zero. -/
def underflowPower : Int := -330

/-- The double nearest to a decimal, ties to even. -/
def toDouble (d : Decimal) : Double :=
  let power := (decimalLength d.digits : Int) + d.exponent
  if d.digits = 0 || power < underflowPower then .zero
  else if overflowPower < power then .infinity
  else if 0 ≤ d.exponent then .nearest false (d.digits * Nat.pow 10 d.exponent.toNat) 1
  else .nearest false d.digits (Nat.pow 10 d.exponent.natAbs)

end Decimal

namespace Double

/-! ## The interval that reads back -/

/-- Lower end of the interval that reads back, in quarter units. Just above a
power of two the gap downwards is half as wide. -/
def intervalLow (x : Double) : Nat :=
  if x.significand = leadingBit ∧ 0 < x.scale then 4 * x.magnitude - Nat.pow 2 x.scale
  else 4 * x.magnitude - 2 * Nat.pow 2 x.scale

/-- Upper end of the interval that reads back, in quarter units. -/
def intervalHigh (x : Double) : Nat := 4 * x.magnitude + 2 * Nat.pow 2 x.scale

/-- A real, given in quarter units multiplied by `factor`, reads back as `x`. -/
def readsBack (x : Double) (factor point : Nat) : Bool :=
  if x.significand % 2 = 0 then
    x.intervalLow * factor ≤ point && point ≤ x.intervalHigh * factor
  else
    x.intervalLow * factor < point && point < x.intervalHigh * factor

/-! ## The shortest decimal -/

/-- Powers of ten that make every grid of up to seventeen digits integral. -/
def gridPower : Nat := 341

/-- The factor `10 ^ gridPower`. -/
def gridFactor : Nat := Nat.pow 10 gridPower

/-- The magnitude in quarter units, multiplied by `gridFactor`. -/
def scaledMagnitude (x : Double) : Nat := 4 * x.magnitude * gridFactor

/-- One, in quarter units. -/
def quarterUnitsPerOne : Nat := 4 * unitsPerOne

/-- Digits before the point of the magnitude times `gridFactor`. -/
def gridDigits (x : Double) : Nat := decimalLength (x.scaledMagnitude / quarterUnitsPerOne)

/-- A number with `k` digits that reads back, if there is one: the nearer of the
two neighbours on the grid, the even one at equal distance. The magnitude has
`n` digits before the point on the finest grid. -/
def shortestWith (x : Double) (n k : Nat) : Option Decimal :=
  let power := n - k
  let step := Nat.pow 10 power * quarterUnitsPerOne
  let d := x.scaledMagnitude / step
  let below := x.readsBack gridFactor (d * step)
  let above := x.readsBack gridFactor ((d + 1) * step)
  let rest := x.scaledMagnitude % step
  let pick (n : Nat) : Option Decimal := some ⟨n, (power : Int) - gridPower⟩
  if below && above then
    if 2 * rest < step then pick d
    else if step < 2 * rest then pick (d + 1)
    else pick (if d % 2 = 0 then d else d + 1)
  else if below then pick d
  else if above then pick (d + 1)
  else none

/-- The magnitude as the decimal that equals it. -/
def exactDecimal (x : Double) : Decimal := ⟨x.magnitude * Nat.pow 5 1074, -1074⟩

/-- The decimal with the fewest digits that reads back as the magnitude of a
finite double other than zero. -/
def shortest (x : Double) : Decimal :=
  (((List.range' 1 17).findSome? (x.shortestWith x.gridDigits)).getD x.exactDecimal).normalize

end Double

end Ecma
