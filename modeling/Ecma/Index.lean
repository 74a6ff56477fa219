/-!
# Integer keys

Properties are named by integers, strings or symbols, and the integers are
exactly those below `maxLength`. A numeral names an integer key only in its
**canonical** form: decimal digits, no sign, no leading zero. So every integer
key has one spelling, and two spellings name the same key only if they are the
same text.
-/

namespace Ecma

/-- One past the greatest integer key: `2 ^ 53 - 1`. -/
def maxLength : Nat := 9007199254740991

/-- Integer keys are the naturals below `maxLength`. -/
def isIndex (n : Nat) : Bool := n < maxLength

/-- The number that a run of decimal digits denotes, after the digits already
read into `acc`; `none` if some character is no digit. -/
def readDigits (acc : Nat) : List Char → Option Nat
  | [] => some acc
  | c :: cs => if c.isDigit then readDigits (acc * 10 + (c.toNat - '0'.toNat)) cs else none

/-- The most digits that an integer key has. -/
def maxIndexDigits : Nat := 16

/-- The integer key that a text spells canonically, if any. A text of more bytes than
an integer key has digits is not looked at any further. -/
def parseIndex (s : String) : Option Nat :=
  if maxIndexDigits < s.utf8ByteSize then none
  else
    match s.toList with
    | [] => none
    | ['0'] => some 0
    | '0' :: _ => none
    | cs => (readDigits 0 cs).filter isIndex

end Ecma
