import Ecma.Text.Printable

/-!
# Quoted text

A text between double quotes, with a backslash before what would not stand for
itself: the quote and the backslash, the line breaks, the tab and the null
character by a letter, and every other character that does not print by its code
point.
-/

namespace Ecma.Text

/-- A code point between braces, in hexadecimal. -/
def codePoint (n : Nat) : List Char := "\\u\x7b".toList ++ Nat.toDigits 16 n ++ ['\x7d']

/-- A character as it is written between quotes. -/
def quoteChar (c : Char) : List Char :=
  match c with
  | '\x00' => ['\\', '0']
  | '\t' => ['\\', 't']
  | '\r' => ['\\', 'r']
  | '\n' => ['\\', 'n']
  | '"' => ['\\', '"']
  | '\\' => ['\\', '\\']
  | c => if isPrintable c then [c] else codePoint c.toNat

/-- A text between quotes. -/
def quote (s : String) : String :=
  String.ofList ('"' :: s.toList.flatMap quoteChar ++ ['"'])

end Ecma.Text
