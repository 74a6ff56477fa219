import Ecma.Number.Rounding

/-!
# The leading word of a long number

A natural number longer than a word of 64 bits is shortened to its leading 64 bits
before it is rounded any further. What is cut off leaves a trace: the last bit
that stays becomes one if a one is seen below the cut, so that the rounding that
follows does not take the number for a tie.

The cut divides a word, and from that word down every word shows as many of its
low bits as lie below the cut in the divided one; a cut between two words shows
all bits. So the trace is exact for numbers of up to two words, and of a longer
number it may miss ones that stand high in the lower words.
-/

namespace Ecma

/-- Bits of a word. -/
def wordBits : Nat := 64

/-- One of the lowest `words` words of `n` has a one among its low `width` bits. -/
def showsOne (width : Nat) : (words n : Nat) → Bool
  | 0, _ => false
  | words + 1, n =>
    n % Nat.pow 2 width != 0 || showsOne width words (n / Nat.pow 2 wordBits)

/-- How many low bits each word shows below a cut that takes `cut` bits off. -/
def shownBits (cut : Nat) : Nat :=
  if cut % wordBits = 0 then wordBits else cut % wordBits

/-- How many words lie below a cut that takes `cut` bits off, the divided one
included. -/
def wordsBelow (cut : Nat) : Nat := (cut + (wordBits - 1)) / wordBits

/-- The number with zeros for all but its leading 64 bits, the last of these
bearing the trace of what was cut off. -/
def toLeadingWord (n : Nat) : Nat :=
  let cut := bitLength n - wordBits
  let head := n / Nat.pow 2 cut
  let kept := if showsOne (shownBits cut) (wordsBelow cut) n then head / 2 * 2 + 1 else head
  kept * Nat.pow 2 cut

/-- A number of a single word stays as it is. -/
theorem toLeadingWord_of_bitLength_le {n : Nat} (h : bitLength n ≤ wordBits) :
    toLeadingWord n = n := by
  have cut : bitLength n - wordBits = 0 := Nat.sub_eq_zero_of_le h
  have none_below : wordsBelow 0 = 0 := rfl
  simp [toLeadingWord, cut, none_below, showsOne]

end Ecma
