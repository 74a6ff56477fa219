/-!
# Text as 16-bit units

Strings are sequences of characters. Their order, however, is that of their
16-bit units: a character above `U+FFFF` counts as two units from the surrogate
range, and so sorts before the characters from `U+E000` to `U+FFFF`.
-/

namespace Ecma.Text

/-- The 16-bit units of a character. -/
def charUnits (c : Char) : List Nat :=
  let n := c.toNat
  if n < 0x10000 then [n]
  else [0xD800 + (n - 0x10000) / 0x400, 0xDC00 + (n - 0x10000) % 0x400]

/-- The 16-bit units of a text. -/
def units (s : String) : List Nat := s.toList.flatMap charUnits

/-- How two lists of units compare, the first difference deciding. -/
def compareUnits : List Nat → List Nat → Ordering
  | [], [] => .eq
  | [], _ :: _ => .lt
  | _ :: _, [] => .gt
  | a :: as, b :: bs => (compare a b).then (compareUnits as bs)

/-- How two texts compare by their 16-bit units. -/
def compareText (s t : String) : Ordering := compareUnits (units s) (units t)

end Ecma.Text
