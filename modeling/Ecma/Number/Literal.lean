import Ecma.Number.Decimal
import Ecma.Number.LeadingWord
import Ecma.Text.Blank

/-!
# Numeric literals

A text denotes a number if, blanks around it aside, it is empty (zero) or

* a radix literal: `0x`, `0o` or `0b` in either case and at least one digit;
* a decimal literal: an optional sign, digits with an optional point and fraction,
  and an optional exponent, with a digit before or after the point;
* `Infinity` with an optional sign.

A decimal literal is checked and brought into a normal form, with digits on both
sides of the point, before anything is computed. How normal forms and natural
numbers become doubles is left to a `Conversion`. The standard one gives the double
nearest to a decimal's exact value, and to a natural number's too, except that one of
more than 64 bits is first shortened to its leading word. Integer literals are read
by a narrower rule, without point, exponent and infinity, and exactly.
-/

namespace Ecma

namespace Literal

/-- The value of a digit in bases up to thirty-six. -/
def digitValue? (c : Char) : Option Nat :=
  if '0' ≤ c ∧ c ≤ '9' then some (c.toNat - '0'.toNat)
  else if 'a' ≤ c ∧ c ≤ 'z' then some (c.toNat - 'a'.toNat + 10)
  else if 'A' ≤ c ∧ c ≤ 'Z' then some (c.toNat - 'A'.toNat + 10)
  else none

/-- The value of a digit of the given base. -/
def digitIn? (base : Nat) (c : Char) : Option Nat := (digitValue? c).filter (· < base)

/-- The number that a run of digits denotes, after the digits already read into
`acc`; `none` if some character is no digit of the base. -/
def readBase (base acc : Nat) : List Char → Option Nat
  | [] => some acc
  | c :: cs =>
    match digitIn? base c with
    | some d => readBase base (acc * base + d) cs
    | none => none

/-- The number that a non-empty run of digits denotes. -/
def natural? (base : Nat) : List Char → Option Nat
  | [] => none
  | cs => readBase base 0 cs

/-- The base that a letter after a leading zero announces. -/
def radix? (c : Char) : Option Nat :=
  if c = 'x' ∨ c = 'X' then some 16
  else if c = 'o' ∨ c = 'O' then some 8
  else if c = 'b' ∨ c = 'B' then some 2
  else none

/-- The base and the digits of a radix literal; a text that only announces a base
is none. -/
def splitRadix? : List Char → Option (Nat × List Char)
  | '0' :: mark :: d :: ds => (radix? mark).map fun base => (base, d :: ds)
  | _ => none

/-- The sign of a literal, and what follows it. -/
def splitSign : List Char → Bool × List Char
  | '-' :: cs => (true, cs)
  | '+' :: cs => (false, cs)
  | cs => (false, cs)

/-- The leading decimal digits, and what follows them. -/
def splitDigits (cs : List Char) : List Char × List Char :=
  (cs.takeWhile Char.isDigit, cs.dropWhile Char.isDigit)

/-- The fraction digits after a point, if there is a point, and what follows. -/
def splitFraction : List Char → List Char × List Char
  | '.' :: cs => splitDigits cs
  | cs => ([], cs)

/-- The sign that may stand first, and what follows it. -/
def spanSign : List Char → List Char × List Char
  | [] => ([], [])
  | c :: cs => if c = '+' ∨ c = '-' then ([c], cs) else ([], c :: cs)

/-- The sign and the digits of an exponent, if a mark announces one, and what
follows; `none` if the mark stands without digits. -/
def splitExponent? : List Char → Option (List Char × List Char)
  | [] => some ([], [])
  | mark :: cs =>
    if mark = 'e' ∨ mark = 'E' then
      let (sign, cs) := spanSign cs
      let (digits, rest) := splitDigits cs
      if digits = [] then none else some (sign ++ digits, rest)
    else
      some ([], mark :: cs)

/-- Digits, and a zero where there are none. -/
def orZero (ds : List Char) : List Char := if ds = [] then ['0'] else ds

/-- The exponent of a normal form. -/
def markExponent (exponent : List Char) : List Char :=
  if exponent = [] then [] else 'e' :: exponent

/-- The normal form of an unsigned decimal literal; `none` if the text is no such
literal. -/
def normalize? (cs : List Char) : Option (List Char) :=
  let (whole, rest) := splitDigits cs
  let (fraction, rest) := splitFraction rest
  if whole = [] ∧ fraction = [] then none
  else
    match splitExponent? rest with
    | some (exponent, []) =>
      some (orZero whole ++ '.' :: (orZero fraction ++ markExponent exponent))
    | _ => none

/-- The exponent that a whole text is: nothing, or a mark, an optional sign and
at least one digit. -/
def exponent? : List Char → Option Int
  | [] => some 0
  | mark :: cs =>
    if mark = 'e' ∨ mark = 'E' then
      let (negative, ds) := splitSign cs
      (natural? 10 ds).map fun n => if negative then -(n : Int) else n
    else
      none

/-- The decimal that a normal form denotes. -/
def decimal? (cs : List Char) : Option Decimal :=
  match splitDigits cs with
  | (whole, '.' :: cs) =>
    let (fraction, rest) := splitDigits cs
    match natural? 10 whole, natural? 10 fraction, exponent? rest with
    | some n, some m, some e => some ⟨n * Nat.pow 10 fraction.length + m, e - fraction.length⟩
    | _, _, _ => none
  | _ => none

/-- How the digits of a literal become a double. -/
structure Conversion where
  /-- the double of a decimal in normal form -/
  ofDecimal : List Char → Option Double
  /-- the double of a natural number of any size -/
  ofNatural : Nat → Double

/-- Decimals are rounded to the nearest double, natural numbers after they were
shortened to their leading word. -/
def Conversion.standard : Conversion where
  ofDecimal cs := (decimal? cs).map Decimal.toDouble
  ofNatural n := .ofNat (toLeadingWord n)

/-- The number that a text other than blanks denotes. -/
def number (conversion : Conversion) (cs : List Char) : Double :=
  match splitRadix? cs with
  | some (base, ds) =>
    match natural? base ds with
    | some n => conversion.ofNatural n
    | none => .nan
  | none =>
    let (negative, body) := splitSign cs
    if body = "Infinity".toList then Double.withSign negative .infinity
    else
      match normalize? body with
      | some text => Double.withSign negative ((conversion.ofDecimal text).getD .nan)
      | none => .nan

/-- The integer that a text other than blanks denotes. -/
def integer? (cs : List Char) : Option Int :=
  match splitRadix? cs with
  | some (base, ds) => (natural? base ds).map fun n => (n : Int)
  | none =>
    let (negative, ds) := splitSign cs
    (natural? 10 ds).map fun n => if negative then -(n : Int) else n

end Literal

/-- The number that a text denotes; not-a-number if it is no literal. -/
def readNumber (conversion : Literal.Conversion) (s : String) : Double :=
  match Text.trim s.toList with
  | [] => .zero
  | cs => Literal.number conversion cs

/-- The number that a text denotes by the standard conversion. -/
def stringToNumber (s : String) : Double := readNumber .standard s

/-- The integer that a text denotes; `none` if it is no integer literal. -/
def stringToBigInt (s : String) : Option Int :=
  match Text.trim s.toList with
  | [] => some 0
  | cs => Literal.integer? cs

/-- An integer in decimal notation. -/
def bigIntToString (n : Int) : String :=
  String.ofList (if n < 0 then '-' :: Nat.toDigits 10 n.natAbs else Nat.toDigits 10 n.natAbs)

end Ecma
