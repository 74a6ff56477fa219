/-!
# Blank characters

Blanks are the characters with Unicode's white-space property, without next line
(`U+0085`) and with the zero-width no-break space (`U+FEFF`). They include all
line terminators.
-/

namespace Ecma.Text

/-- A blank character. -/
def isBlank (c : Char) : Bool :=
  let n := c.toNat
  (0x9 ≤ n && n ≤ 0xD) || n = 0x20 || n = 0xA0 || n = 0x1680 || (0x2000 ≤ n && n ≤ 0x200A) ||
    n = 0x2028 || n = 0x2029 || n = 0x202F || n = 0x205F || n = 0x3000 || n = 0xFEFF

/-- A list of characters without blanks at its end. -/
def trimEnd (cs : List Char) : List Char := (cs.reverse.dropWhile isBlank).reverse

/-- A list of characters without blanks at its start and end. -/
def trim (cs : List Char) : List Char := trimEnd (cs.dropWhile isBlank)

/-- A text without blanks at its start and end. -/
def trimText (s : String) : String := String.ofList (trim s.toList)

end Ecma.Text
