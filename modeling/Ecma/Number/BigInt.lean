import Ecma.Number.Integer

/-!
# Integers against doubles

Arbitrarily large integers are compared with doubles exactly. The double is rounded
down to an integral one, which is an integer: its significand, shifted to its place.
If the two integers are equal, the fraction that was cut off decides.
-/

namespace Ecma.Double

/-- The place of the last bit of a significand is that of the unit if the exponent field
has this value. -/
def unitExponent : Nat := 1075

/-- The integer that an integral double is: its significand, shifted to its place. -/
def integer (x : Double) : Int :=
  if x.exponentField = 0 then 0
  else
    let magnitude :=
      if unitExponent ≤ x.exponentField then x.significand <<< (x.exponentField - unitExponent)
      else x.significand >>> (unitExponent - x.exponentField)
    if x.isNegative then -(magnitude : Int) else magnitude

/-- How an integer compares with a double; `none` if the double is not a
number. -/
def compareInt (n : Int) (x : Double) : Option Ordering :=
  if x.isNaN then none
  else if x.isInfinite then some (if x.isNegative then .gt else .lt)
  else
    match compare n x.floor.integer with
    | .eq => some (if x.floor.lessThan x then .lt else .eq)
    | o => some o

end Ecma.Double
