import Ecma.Number.Literal
import Ecma.Number.Text

/-!
# Canonical numeric strings

A text is the canonical text of a number if it reads as that number and the
number is written that way. Minus zero, whose sign is not written, has the text
`-0` of its own.
-/

namespace Ecma

/-- The number of which a text is the canonical text, for a way of reading and one of
writing. -/
def canonicalNumericBy (conversion : Literal.Conversion) (printer : Printer) (s : String) :
    Option Double :=
  if s = "-0" then some .negZero
  else if (readNumber conversion s).toTextBy printer = s then some (readNumber conversion s)
  else none

/-- The number of which a text is the canonical text. -/
def canonicalNumeric (s : String) : Option Double := canonicalNumericBy .standard .standard s

end Ecma
