import Ecma.Number.LeadingWord
import Ecma.Proofs.Number.Nearest

/-!
# Rounding after shortening

A number of at most two words is shortened to its leading word without harm. The cut
then divides the lower word or lies between the two, so every bit below it is shown, and
the last bit kept is one if anything was cut off (`showsOne_eq`). At least two bits of the
leading word are rounded away, and an odd last bit keeps the rest from being taken for a
tie (`roundDiv_trace`). So rounding the shortened number gives the double nearest to the
whole one.
-/

namespace Ecma

/-- Rounding does not depend on a common factor. -/
theorem roundDiv_mul_right (num den : Nat) {k : Nat} (hk : 0 < k) :
    roundDiv (num * k) (den * k) = roundDiv num den := by
  have hlt (a b : Nat) : 2 * (a * k) < b * k ↔ 2 * a < b := by
    rw [← Nat.mul_assoc]
    exact Nat.mul_lt_mul_right hk
  have hgt (a b : Nat) : b * k < 2 * (a * k) ↔ b < 2 * a := by
    rw [← Nat.mul_assoc]
    exact Nat.mul_lt_mul_right hk
  simp only [roundDiv, Nat.mul_div_mul_right _ _ hk, Nat.mul_mod_mul_right, hlt, hgt]

theorem roundDiv_of_lt {num den : Nat} (h : 2 * (num % den) < den) :
    roundDiv num den = num / den := by
  rw [roundDiv, if_pos h]

theorem roundDiv_of_gt {num den : Nat} (h : den < 2 * (num % den)) :
    roundDiv num den = num / den + 1 := by
  rw [roundDiv, if_neg h.not_gt, if_pos h]

/-- Making the last bit one does not change a quotient by a multiple of four. -/
theorem div_mod_odd (n : Nat) {k : Nat} (hk : 0 < k) :
    (n / 2 * 2 + 1) / (4 * k) = n / (4 * k) ∧
      (n / 2 * 2 + 1) % (4 * k) = n % (4 * k) / 2 * 2 + 1 := by
  have hmod : n % (4 * k) < 4 * k := Nat.mod_lt n (by omega)
  have hn := Nat.div_add_mod n (4 * k)
  rw [Nat.div_mod_unique (by omega)]
  rw [Nat.mul_assoc] at hn ⊢
  generalize k * (n / (4 * k)) = a at hn
  omega

/-- The bits above a cut, the last of them one if a one was cut off. -/
def traced (cut n : Nat) : Nat :=
  if n % 2 ^ cut = 0 then n / 2 ^ cut else n / 2 ^ cut / 2 * 2 + 1

/-- **The trace** of what was cut off is enough to round at least two bits further up. -/
theorem roundDiv_trace (cut n : Nat) {e : Nat} (he : 2 ≤ e) :
    roundDiv (traced cut n * 2 ^ cut) (2 ^ e * 2 ^ cut) = roundDiv n (2 ^ e * 2 ^ cut) := by
  have hcut : 0 < 2 ^ cut := Nat.two_pow_pos cut
  have hlow : n % 2 ^ cut < 2 ^ cut := Nat.mod_lt n hcut
  rw [traced]
  split
  · next hzero =>
    rw [Nat.div_mul_cancel (Nat.dvd_of_mod_eq_zero hzero)]
  · next hne =>
    obtain ⟨k, hk⟩ : ∃ k, 2 ^ e = 4 * k := by
      refine ⟨2 ^ (e - 2), ?_⟩
      rw [show 4 = 2 ^ 2 from rfl, ← Nat.pow_add, Nat.add_sub_cancel' he]
    have hkpos : 0 < k := by
      have := Nat.two_pow_pos e
      omega
    have hdiv : n / (4 * k * 2 ^ cut) = n / 2 ^ cut / (4 * k) := by
      rw [Nat.mul_comm, Nat.div_div_eq_div_mul]
    have hmod : n % (4 * k * 2 ^ cut) = n / 2 ^ cut % (4 * k) * 2 ^ cut + n % 2 ^ cut := by
      rw [Nat.mul_comm, Nat.mod_mul, Nat.mul_comm, Nat.add_comm]
    have hdouble : 4 * k * 2 ^ cut = 2 * (2 * k * 2 ^ cut) := by ring
    obtain ⟨hquotient, hrest⟩ := div_mod_odd (n / 2 ^ cut) hkpos
    rw [roundDiv_mul_right _ _ hcut, hk]
    -- no tie on either side: the quotient goes up exactly if the first bit below is one
    rcases Nat.lt_or_ge (n / 2 ^ cut % (4 * k)) (2 * k) with hless | hmore
    · have hbound := Nat.mul_le_mul_right (2 ^ cut) (Nat.succ_le_of_lt hless)
      rw [Nat.succ_mul] at hbound
      rw [roundDiv_of_lt (by omega), roundDiv_of_lt (by omega), hquotient, hdiv]
    · have hbound := Nat.mul_le_mul_right (2 ^ cut) hmore
      rw [roundDiv_of_gt (by omega), roundDiv_of_gt (by omega), hquotient, hdiv]

/-- Below a cut of at most one word every bit is shown. -/
theorem showsOne_eq {cut : Nat} (hpos : 0 < cut) (hle : cut ≤ wordBits) (n : Nat) :
    showsOne (shownBits cut) (wordsBelow cut) n = true ↔ n % 2 ^ cut ≠ 0 := by
  have hwords : wordsBelow cut = 1 := by
    simp only [wordsBelow, wordBits] at *
    omega
  have hshown : shownBits cut = cut := by
    rw [shownBits]
    split <;> simp only [wordBits] at * <;> omega
  rw [hwords, hshown, showsOne, showsOne, Bool.or_false, bne_iff_ne]
  rfl

/-- A number of more than one word and at most two is shortened to its traced leading
word. -/
theorem toLeadingWord_eq {n : Nat} (hlow : wordBits < bitLength n)
    (hhigh : bitLength n ≤ 2 * wordBits) :
    toLeadingWord n =
      traced (bitLength n - wordBits) n * 2 ^ (bitLength n - wordBits) := by
  have hshows := showsOne_eq (Nat.sub_pos_of_lt hlow) (show bitLength n - wordBits ≤ wordBits by
    omega) n
  have hpow : Nat.pow 2 (bitLength n - wordBits) = 2 ^ (bitLength n - wordBits) := rfl
  simp only [toLeadingWord, traced, hpow]
  by_cases hzero : n % 2 ^ (bitLength n - wordBits) = 0
  · rw [if_pos hzero, if_neg (fun h => hshows.mp h hzero)]
  · rw [if_neg hzero, if_pos (hshows.mpr hzero)]

theorem bitLength_eq_iff {n k : Nat} : bitLength n = k + 1 ↔ 2 ^ k ≤ n ∧ n < 2 ^ (k + 1) := by
  rw [bitLength]
  split
  · next hzero =>
    have := Nat.two_pow_pos k
    omega
  · next hne =>
    rw [← Nat.log2_eq_iff hne]
    omega

theorem bitLength_mul_two_pow {n k : Nat} (h : bitLength n = k + 1) (s : Nat) :
    bitLength (n * 2 ^ s) = k + s + 1 := by
  obtain ⟨hlow, hhigh⟩ := bitLength_eq_iff.mp h
  rw [bitLength_eq_iff]
  constructor
  · rw [Nat.pow_add]
    exact Nat.mul_le_mul_right _ hlow
  · rw [show k + s + 1 = k + 1 + s by omega, Nat.pow_add]
    exact Nat.mul_lt_mul_of_pos_right hhigh (Nat.two_pow_pos s)

/-- The traced leading word is as long as the leading word. -/
theorem bitLength_traced {n cut : Nat} (h : bitLength n = 63 + cut + 1) :
    bitLength (traced cut n) = 63 + 1 := by
  obtain ⟨hlow, hhigh⟩ := bitLength_eq_iff.mp h
  have hcut : 0 < 2 ^ cut := Nat.two_pow_pos cut
  have hhead : 2 ^ 63 ≤ n / 2 ^ cut ∧ n / 2 ^ cut < 2 ^ (63 + 1) := by
    constructor
    · rw [Nat.le_div_iff_mul_le hcut, ← Nat.pow_add]
      exact hlow
    · rw [Nat.div_lt_iff_lt_mul hcut, ← Nat.pow_add, show 63 + 1 + cut = 63 + cut + 1 by omega]
      exact hhigh
  rw [bitLength_eq_iff, traced]
  split <;> omega

namespace Double

/-- Integers with the same length that round alike have the same nearest double. -/
theorem ofNat_congr {m n k : Nat} (hm : bitLength m = k + 1) (hn : bitLength n = k + 1)
    (hk : 53 ≤ k) (h : roundDiv m (2 ^ (k - 52)) = roundDiv n (2 ^ (k - 52))) :
    ofNat m = ofNat n := by
  have hround {a : Nat} (ha : bitLength a = k + 1) : gridRound 53 0 (a * unitsPerOne) 1 =
      (roundDiv a (2 ^ (k - 52)), k - 52 + 1074) := by
    have hscale : gridScale 53 0 (a * unitsPerOne) 1 = k - 52 + 1074 := by
      rw [gridScale, Nat.div_one, unitsPerOne_eq rfl, bitLength_mul_two_pow ha]
      omega
    rw [gridRound, hscale]
    change (roundDiv _ (1 * 2 ^ (k - 52 + 1074)), _) = _
    rw [Nat.one_mul, Nat.pow_add, unitsPerOne_eq rfl, roundDiv_mul_right _ _ (Nat.two_pow_pos _)]
  rw [ofNat, ofNat, nearest, nearest, ofUnits, ofUnits, magnitudeBits, magnitudeBits, hround hm,
    hround hn, h]

/-- **Two words.** A number of at most two words that was shortened to its leading word is
rounded to the double nearest to the whole number. -/
theorem isNearest_toLeadingWord {n : Nat} (h : n < 2 ^ 128) :
    IsNearest false n (ofNat (toLeadingWord n)) := by
  rcases Nat.lt_or_ge wordBits (bitLength n) with hlong | hshort
  · have hlen : bitLength n ≤ 2 * wordBits := by
      rw [bitLength]
      split
      · exact Nat.zero_le _
      · next hne => exact (Nat.log2_lt hne).mpr h
    obtain ⟨cut, hcut⟩ : ∃ cut, bitLength n = 63 + cut + 1 :=
      ⟨bitLength n - 64, by simp only [wordBits] at hlong; omega⟩
    have hcut' : bitLength n - wordBits = cut := by
      simp only [wordBits]
      omega
    have hsame : ofNat (toLeadingWord n) = ofNat n := by
      rw [toLeadingWord_eq hlong hlen, hcut']
      refine ofNat_congr (bitLength_mul_two_pow (bitLength_traced hcut) cut) hcut (by omega) ?_
      rw [show 63 + cut - 52 = 11 + cut by omega, Nat.pow_add]
      exact roundDiv_trace cut n (by decide)
    rw [hsame]
    exact isNearest_ofNat n
  · rw [toLeadingWord_of_bitLength_le hshort]
    exact isNearest_ofNat n

end Double

end Ecma
