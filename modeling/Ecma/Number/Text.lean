import Ecma.Number.Decimal

/-!
# Numbers as text

An integer of up to 31 bits is written as it is. How any other finite number is
written is left to a `Printer`. The standard one takes the shortest digits that read
back. They stand in positional notation while the decimal point is at most
twenty-one places to the right of the first digit and at most five zeros follow it
before the digits; otherwise one digit stands before the point and a signed power of
ten follows.
-/

namespace Ecma

namespace Decimal

/-- The decimal point stands at most this many places right of the first
digit. -/
def maxIntegerPlaces : Int := 21

/-- The decimal point stands more than this many places left of the first
digit. -/
def minPoint : Int := -6

/-- A run of zeros. -/
def zeros (n : Nat) : List Char := List.replicate n '0'

/-- The exponent of scientific notation: mark, sign, digits. -/
def exponentText (e : Int) : List Char :=
  'e' :: (if e < 0 then '-' else '+') :: Nat.toDigits 10 e.natAbs

/-- The digits `ds` with the decimal point `point` places right of their
start. -/
def layout (ds : List Char) (point : Int) : List Char :=
  let k : Int := ds.length
  if k ≤ point ∧ point ≤ maxIntegerPlaces then ds ++ zeros (point - k).toNat
  else if 0 < point ∧ point ≤ maxIntegerPlaces then
    ds.take point.toNat ++ '.' :: ds.drop point.toNat
  else if minPoint < point ∧ point ≤ 0 then '0' :: '.' :: zeros point.natAbs ++ ds
  else
    match ds with
    | [d] => d :: exponentText (point - 1)
    | d :: rest => d :: '.' :: rest ++ exponentText (point - 1)
    | [] => exponentText (point - 1)

/-- A decimal as text. -/
def toChars (d : Decimal) : List Char :=
  let ds := Nat.toDigits 10 d.digits
  layout ds (ds.length + d.exponent)

end Decimal

namespace Double

/-- Without a fraction, and of at most 31 bits. -/
def isSmallInteger (x : Double) : Bool :=
  x.isIntegral && x.magnitude < 2147483648 * unitsPerOne

/-- The sign that stands in front of a number. -/
def signChars (x : Double) : List Char := if x.isNegative then ['-'] else []

end Double

/-- How numbers are written in general. -/
structure Printer where
  /-- a finite number other than zero, with its sign -/
  ofFinite : Double → List Char

/-- The shortest digits that read back. -/
def Printer.standard : Printer where
  ofFinite x := x.signChars ++ x.shortest.toChars

namespace Double

/-- A number as text, written by `printer` if it is no special one. The sign of zero is not
written. -/
def toCharsBy (printer : Printer) (x : Double) : List Char :=
  if x.isNaN then "NaN".toList
  else if x.isZero then ['0']
  else if x.isInfinite then x.signChars ++ "Infinity".toList
  else if x.isSmallInteger then x.signChars ++ Nat.toDigits 10 (x.magnitude / unitsPerOne)
  else printer.ofFinite x

/-- A number as text, by the given printer. -/
def toTextBy (printer : Printer) (x : Double) : String := String.ofList (x.toCharsBy printer)

/-- A number as text. -/
def toText (x : Double) : String := x.toTextBy .standard

end Double

end Ecma
