import Ecma.Number.Rounding

/-!
# Double-precision numbers by their bits

A `Double` is one of the `2 ^ 64` bit patterns of the 64-bit binary format, and
everything about it is computed from them in exact integer arithmetic.

Every finite double is a whole multiple of `2 ^ -1074`, the least positive one;
`units` is that multiple. So comparing doubles is comparing integers, truncating
is integer division by `unitsPerOne`, and rounding an exact quotient to a double
is `gridRound` on quotients counted in units. The formula for `units` also puts
the two infinities beyond every finite number, as they should be.

The bit pattern without its sign is itself a natural number that grows with the
magnitude. That is why `magnitudeBits` needs no case distinction: a significand
that carries into the next power of two carries into the exponent field.
-/

namespace Ecma

/-- A double-precision number. -/
structure Double where
  /-- sign bit, eleven exponent bits, fifty-two fraction bits -/
  bits : UInt64
  deriving DecidableEq, Repr, Inhabited

namespace Double

/-- Units of `2 ^ -1074` in the number one. -/
def unitsPerOne : Nat := Nat.pow 2 1074

/-- The weight of the sign bit, `2 ^ 63`. -/
def signBit : Nat := 9223372036854775808

/-- The weight of the leading bit of a significand, `2 ^ 52`. -/
def leadingBit : Nat := 4503599627370496

/-! ## Taking a double apart -/

/-- The sign bit is set. -/
def isNegative (x : Double) : Bool := signBit ≤ x.bits.toNat

/-- The eleven bits that scale the number. -/
def exponentField (x : Double) : Nat := x.bits.toNat / leadingBit % 2048

/-- The fifty-two bits after the leading one. -/
def fractionField (x : Double) : Nat := x.bits.toNat % leadingBit

/-- Not a number. -/
def isNaN (x : Double) : Bool := x.exponentField = 2047 && x.fractionField != 0

/-- Plus or minus infinity. -/
def isInfinite (x : Double) : Bool := x.exponentField = 2047 && x.fractionField = 0

/-- Neither an infinity nor not a number. -/
def isFinite (x : Double) : Bool := x.exponentField != 2047

/-- The significand as an integer, the leading one included where there is
one. -/
def significand (x : Double) : Nat :=
  if x.exponentField = 0 then x.fractionField else leadingBit + x.fractionField

/-- The power of two that a significand is multiplied with, in units. -/
def scale (x : Double) : Nat := x.exponentField - 1

/-- The absolute value in units. -/
def magnitude (x : Double) : Nat := x.significand * Nat.pow 2 x.scale

/-- The exact value in units. -/
def units (x : Double) : Int := if x.isNegative then -(x.magnitude : Int) else x.magnitude

/-- Plus or minus zero. -/
def isZero (x : Double) : Bool := x.magnitude = 0

/-! ## Putting a double together -/

/-- The bits of infinity, sign apart. -/
def infinityBits : Nat := 2047 * leadingBit

/-- A double from its sign and the bits below it. -/
def assemble (negative : Bool) (low : Nat) : Double :=
  ⟨UInt64.ofNat ((if negative then signBit else 0) + low)⟩

/-- The bits, sign apart, of the double nearest to `num / den` units; beyond the
greatest finite double they are those of infinity. -/
def magnitudeBits (num den : Nat) : Nat :=
  let (m, s) := gridRound 53 0 num den
  min (s * leadingBit + m) infinityBits

/-- The double nearest to plus or minus `num / den` units, ties to even. -/
def ofUnits (negative : Bool) (num den : Nat) : Double :=
  assemble negative (magnitudeBits num den)

/-- The double nearest to plus or minus `num / den`, ties to even. -/
def nearest (negative : Bool) (num den : Nat) : Double :=
  ofUnits negative (num * unitsPerOne) den

/-- The double nearest to an integer. -/
def ofInt (n : Int) : Double := nearest (n < 0) n.natAbs 1

/-- The double nearest to a natural number. -/
def ofNat (n : Nat) : Double := nearest false n 1

/-- Plus zero. -/
def zero : Double := assemble false 0

/-- Minus zero. -/
def negZero : Double := assemble true 0

/-- One. -/
def one : Double := ofNat 1

/-- Plus infinity. -/
def infinity : Double := assemble false infinityBits

/-- Minus infinity. -/
def negInfinity : Double := assemble true infinityBits

/-- The quiet not-a-number. -/
def nan : Double := assemble false (infinityBits + leadingBit / 2)

/-- One for `true`, plus zero for `false`. -/
def ofBool (b : Bool) : Double := if b then one else zero

/-- The double with the opposite sign. -/
def negate (x : Double) : Double := assemble (!x.isNegative) (x.bits.toNat % signBit)

/-- The double without its sign. -/
def abs (x : Double) : Double := assemble false (x.bits.toNat % signBit)

/-- The double, or the one with the opposite sign. -/
def withSign (negative : Bool) (x : Double) : Double := if negative then x.negate else x

/-! ## Comparing -/

/-- Numerically equal: not-a-number equals nothing, the two zeros are equal. -/
def equals (x y : Double) : Bool := !x.isNaN && !y.isNaN && x.units = y.units

/-- Numerically less; false if either is not a number. -/
def lessThan (x y : Double) : Bool := !x.isNaN && !y.isNaN && x.units < y.units

/-- Numerically less or equal; false if either is not a number. -/
def lessOrEqual (x y : Double) : Bool := !x.isNaN && !y.isNaN && x.units ≤ y.units

/-- Equal as a value: not-a-number equals itself, the two zeros differ. -/
def sameValue (x y : Double) : Bool :=
  if x.isNaN then y.isNaN else x.equals y && x.isNegative = y.isNegative

/-- Equal as a value, the two zeros counting as one. -/
def sameValueZero (x y : Double) : Bool := (x.isNaN && y.isNaN) || x.equals y

/-! ## Integers -/

/-- The integer that a finite double becomes when its fraction is cut off. -/
def truncate (x : Double) : Int := x.units.tdiv unitsPerOne

/-- Finite and without a fraction. -/
def isIntegral (x : Double) : Bool := x.isFinite && x.magnitude % unitsPerOne = 0

/-! ## Single precision -/

/-- One past the greatest magnitude that single precision reaches, in units. -/
def singleLimit : Nat := Nat.pow 2 (1074 + 128)

/-- The nearest number of single precision, ties to even; overflow gives
infinity. -/
def toSingle (x : Double) : Double :=
  if x.isNaN then nan
  else if x.isInfinite then x
  else
    let (m, s) := gridRound 24 925 x.magnitude 1
    if singleLimit ≤ m * Nat.pow 2 s then assemble x.isNegative infinityBits
    else ofUnits x.isNegative (m * Nat.pow 2 s) 1

end Double

end Ecma
