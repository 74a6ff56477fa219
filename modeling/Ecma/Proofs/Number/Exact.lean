import Mathlib.Algebra.Group.Nat.Defs
import Ecma.Number.Integer

/-!
# Naturals that a double holds exactly

A natural number below `2 ^ 53` has at most as many binary digits as a significand,
so rounding it to the nearest double does not change it. The number is scaled until
its leading digit is that of a significand: `m * 2 ^ s` units with `m` from
`2 ^ 52` on and below `2 ^ 53`. Rounding finds `m` and `s` back (`gridRound_exact`),
and the bits put together from them are read as `m * 2 ^ s` again
(`magnitude_assemble`).
-/

namespace Ecma

/-- A quotient that is an integer is rounded to itself. -/
theorem roundDiv_mul_self (m : Nat) {den : Nat} (h : 0 < den) : roundDiv (m * den) den = m := by
  simp [roundDiv, h]

/-- A number that fits the grid is a point of it. -/
theorem gridRound_exact {p m : Nat} (s : Nat) (hlow : 2 ^ p ≤ m) (hhigh : m < 2 ^ (p + 1)) :
    gridRound (p + 1) 0 (m * 2 ^ s) 1 = (m, s) := by
  have hpow : 0 < 2 ^ s := Nat.two_pow_pos s
  have hpos : m * 2 ^ s ≠ 0 := by
    have hm : 0 < m := Nat.lt_of_lt_of_le (Nat.two_pow_pos p) hlow
    exact Nat.ne_of_gt (Nat.mul_pos hm hpow)
  have hlog : (m * 2 ^ s).log2 = p + s := by
    rw [Nat.log2_eq_iff hpos]
    constructor
    · rw [Nat.pow_add]
      exact Nat.mul_le_mul_right _ hlow
    · rw [show p + s + 1 = p + 1 + s by omega, Nat.pow_add 2 (p + 1) s]
      exact Nat.mul_lt_mul_of_pos_right hhigh hpow
  have hscale : gridScale (p + 1) 0 (m * 2 ^ s) 1 = s := by
    rw [gridScale, Nat.div_one, bitLength, if_neg hpos, hlog]
    omega
  rw [gridRound, hscale]
  change (roundDiv (m * 2 ^ s) (1 * 2 ^ s), s) = (m, s)
  rw [Nat.one_mul, roundDiv_mul_self m hpow]

namespace Double

/-- The bits of a sign, of a significand with its leading one and of a scale are read
back. -/
theorem magnitude_assemble (negative : Bool) {m s : Nat} (hs : s < 2046) (hlow : leadingBit ≤ m)
    (hhigh : m < 2 * leadingBit) :
    (assemble negative (s * leadingBit + m)).isFinite ∧
      (assemble negative (s * leadingBit + m)).isNegative = negative ∧
      (assemble negative (s * leadingBit + m)).magnitude = m * 2 ^ s := by
  have hbits : (assemble negative (s * leadingBit + m)).bits.toNat =
      (if negative then signBit else 0) + (s * leadingBit + m) := by
    simp only [leadingBit, signBit] at *
    simp only [assemble, UInt64.toNat_ofNat', signBit]
    split <;> omega
  have hexp : (assemble negative (s * leadingBit + m)).exponentField = s + 1 := by
    rw [exponentField, hbits]
    simp only [leadingBit, signBit] at *
    split <;> omega
  have hfrac : (assemble negative (s * leadingBit + m)).fractionField = m - leadingBit := by
    rw [fractionField, hbits]
    simp only [leadingBit, signBit] at *
    split <;> omega
  refine ⟨?_, ?_, ?_⟩
  · rw [isFinite, hexp, bne_iff_ne]
    omega
  · rw [isNegative, hbits]
    simp only [leadingBit, signBit] at *
    cases negative <;> simp
    omega
  · rw [magnitude, significand, scale, hexp, hfrac, if_neg (Nat.succ_ne_zero s)]
    rw [Nat.add_sub_cancel' hlow, Nat.add_sub_cancel]
    rfl

/-- The power of two that one is; the exponent is not spelled out, so that it is
never computed. -/
theorem unitsPerOne_eq {e : Nat} (h : 1074 = e) : unitsPerOne = 2 ^ e := by
  unfold unitsPerOne
  generalize 1074 = n at h
  rw [h]
  rfl

/-- A natural number below `2 ^ 53` with a sign loses nothing as a double. -/
theorem nearest_exact (negative : Bool) {n : Nat} (h : n < 2 ^ 53) :
    (nearest negative n 1).isFinite ∧ (nearest negative n 1).isNegative = negative ∧
      (nearest negative n 1).magnitude = n * unitsPerOne := by
  rcases Nat.eq_zero_or_pos n with rfl | hpos
  · have hzero : nearest negative 0 1 = assemble negative 0 := by
      simp [nearest, ofUnits, magnitudeBits, gridRound, gridScale, bitLength, roundDiv]
    rw [hzero, Nat.zero_mul]
    cases negative <;> decide
  · -- the scale that makes the leading digit of `n` that of a significand
    have hlog : n.log2 < 53 := (Nat.log2_lt (Nat.ne_of_gt hpos)).mpr h
    have hunits : n * unitsPerOne = n * 2 ^ (52 - n.log2) * 2 ^ (n.log2 + 1022) := by
      have hsum : 1074 = 52 - n.log2 + (n.log2 + 1022) := by omega
      rw [Nat.mul_assoc, ← Nat.pow_add, unitsPerOne_eq hsum]
    have hlow : 2 ^ 52 ≤ n * 2 ^ (52 - n.log2) := by
      calc 2 ^ 52 = 2 ^ n.log2 * 2 ^ (52 - n.log2) := by
            rw [← Nat.pow_add, show n.log2 + (52 - n.log2) = 52 by omega]
        _ ≤ n * 2 ^ (52 - n.log2) :=
            Nat.mul_le_mul_right _ (Nat.log2_self_le (Nat.ne_of_gt hpos))
    have hhigh : n * 2 ^ (52 - n.log2) < 2 ^ (52 + 1) := by
      calc n * 2 ^ (52 - n.log2) < 2 ^ (n.log2 + 1) * 2 ^ (52 - n.log2) :=
            Nat.mul_lt_mul_of_pos_right Nat.lt_log2_self (Nat.two_pow_pos _)
        _ = 2 ^ (52 + 1) := by
            rw [← Nat.pow_add, show n.log2 + 1 + (52 - n.log2) = 52 + 1 by omega]
    rw [nearest, ofUnits, magnitudeBits, hunits, gridRound_exact _ hlow hhigh]
    dsimp only
    -- only the bounds of the significand matter from here on
    generalize n * 2 ^ (52 - n.log2) = m at hlow hhigh
    have hbelow : (n.log2 + 1022) * leadingBit + m ≤ infinityBits := by
      simp only [leadingBit, infinityBits]
      omega
    rw [Nat.min_eq_left hbelow]
    exact magnitude_assemble negative (by omega) hlow hhigh

/-- A natural number below `2 ^ 53` loses nothing as a double. -/
theorem ofNat_exact {n : Nat} (h : n < 2 ^ 53) :
    (ofNat n).isFinite ∧ (ofNat n).isNegative = false ∧
      (ofNat n).magnitude = n * unitsPerOne :=
  nearest_exact false h

theorem isFinite_ofNat {n : Nat} (h : n < 2 ^ 53) : (ofNat n).isFinite := (ofNat_exact h).1

theorem isIntegral_ofNat {n : Nat} (h : n < 2 ^ 53) : (ofNat n).isIntegral := by
  obtain ⟨hfinite, -, hmagnitude⟩ := ofNat_exact h
  rw [isIntegral, hfinite, hmagnitude, Nat.mul_mod_left]
  rfl

theorem truncate_ofNat {n : Nat} (h : n < 2 ^ 53) : (ofNat n).truncate = n := by
  obtain ⟨-, hnegative, hmagnitude⟩ := ofNat_exact h
  have hone : (unitsPerOne : Int) ≠ 0 := by decide +kernel
  rw [truncate, units, hnegative, hmagnitude]
  rw [if_neg Bool.false_ne_true, Int.natCast_mul, Int.mul_tdiv_cancel _ hone]

theorem toUint_lt (width : Nat) (x : Double) : x.toUint width < 2 ^ width :=
  (x.toWord.setWidth width).isLt

end Double

end Ecma
