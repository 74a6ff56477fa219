/-!
# Rounding to the nearest, ties to even

Two rules of exact natural-number arithmetic carry all rounding in this library:
`roundDiv` rounds a quotient to an integer, and `gridRound` rounds a quotient to
a number with a bounded count of binary digits, which is a point of the grid
that a binary floating-point format covers.
-/

namespace Ecma

/-- The integer nearest to `num / den`; a tie goes to the even one. -/
def roundDiv (num den : Nat) : Nat :=
  let q := num / den
  let r := num % den
  if 2 * r < den then q
  else if den < 2 * r then q + 1
  else if q % 2 = 0 then q
  else q + 1

/-- Number of binary digits of a natural number. -/
def bitLength (n : Nat) : Nat := if n = 0 then 0 else n.log2 + 1

/-- The scale at which `num / den` has `precision` binary digits, and at least
`minScale`. -/
def gridScale (precision minScale num den : Nat) : Nat :=
  max (bitLength (num / den) - precision) minScale

/-- Round `num / den` to `m * 2 ^ s`, where `m` has `precision` binary digits and
`s` is at least `minScale`; yields `m` and `s`. Carrying may make `m` one digit
longer, and it is then a power of two. -/
def gridRound (precision minScale num den : Nat) : Nat × Nat :=
  let s := gridScale precision minScale num den
  (roundDiv num (den * Nat.pow 2 s), s)

end Ecma
