import Ecma.Number.Double

/-!
# Integers from doubles

A number becomes an integer of a given width by arithmetic on doubles: its fraction is
cut off, the rest is reduced modulo `2 ^ 32` and becomes a word, and narrower integers are
the low bits of that word. Each operation of this arithmetic is exact arithmetic on units
that is rounded once.
-/

namespace Ecma.Double

/-! ## Arithmetic -/

/-- The double nearest to the sum. A sum that is zero is minus zero only if both numbers
are. -/
def add (x y : Double) : Double :=
  if x.isNaN || y.isNaN then nan
  else if x.isInfinite then
    if y.isInfinite && x.isNegative != y.isNegative then nan else x
  else if y.isInfinite then y
  else
    let sum := x.units + y.units
    if sum = 0 then assemble (x.isNegative && y.isNegative) 0
    else ofUnits (sum < 0) sum.natAbs 1

/-- The double nearest to the difference. -/
def sub (x y : Double) : Double := x.add y.negate

/-- What is left of a number after taking another one away from it as often as
possible; it has the sign of the number. -/
def remainder (x y : Double) : Double :=
  if x.isNaN || y.isNaN || x.isInfinite || y.isZero then nan
  else if y.isInfinite then x
  else ofUnits x.isNegative (x.magnitude % y.magnitude) 1

/-- The remainder, moved to where it is not negative. -/
def euclideanRemainder (x y : Double) : Double :=
  let r := x.remainder y
  if r.lessThan zero then r.add y.abs else r

/-! ## Without the fraction -/

/-- The integral double next to a finite one on the way to zero; the sign is kept. -/
def trunc (x : Double) : Double :=
  if x.isFinite then nearest x.isNegative x.truncate.natAbs 1 else x

/-- The greatest integral double that is not above a finite one; the zeros and what is
not finite stay as they are. -/
def floor (x : Double) : Double :=
  if x.isFinite && !x.isIntegral then nearest x.isNegative (x.units / unitsPerOne).natAbs 1
  else x

/-- The double without its fraction, sign kept; not-a-number becomes zero. -/
def toInteger (x : Double) : Double :=
  if x.isNaN then zero
  else if x.isInfinite || x.isZero then x
  else x.trunc

/-! ## Words -/

/-- The word nearest to a number whose fraction is cut off; not-a-number becomes
zero. -/
def saturate (width : Nat) (x : Double) : BitVec width :=
  if x.isNaN then 0 else BitVec.ofNat width (min x.truncate.toNat (Nat.pow 2 width - 1))

/-- How many words of 32 bits there are. -/
def wordCount : Double := ofNat 4294967296

/-- The word that a number becomes, modulo the count of words; zero unless finite. A
number that is in the range needs no reduction. -/
def toWord (x : Double) : BitVec 32 :=
  if !x.isFinite || x.isZero then 0
  else if zero.lessOrEqual x && x.lessThan wordCount then x.saturate 32
  else (x.trunc.euclideanRemainder wordCount).saturate 32

/-- The unsigned integer that a number becomes: the low bits of its word. -/
def toUint (width : Nat) (x : Double) : Nat := (x.toWord.setWidth width).toNat

/-- The signed integer that a number becomes: the low bits of its word, the first of them
being the sign. -/
def toInt (width : Nat) (x : Double) : Int := (x.toWord.setWidth width).toInt

/-- One half. -/
def half : Double := nearest false 1 2

/-- The double rounded to an integral one, a half going to the even neighbour. -/
def roundHalfEven (x : Double) : Double :=
  let below := x.floor
  let fraction := x.sub below
  if fraction.lessThan half then below
  else if half.lessThan fraction || !(below.remainder (ofNat 2)).equals zero then below.add one
  else below

/-- The value clamped to `0` to `255` and rounded; not-a-number becomes zero. -/
def toUint8Clamp (x : Double) : Nat :=
  if x.isNaN || x.lessOrEqual zero then 0
  else if (ofNat 255).lessOrEqual x then 255
  else (x.roundHalfEven.saturate 8).toNat

end Ecma.Double
