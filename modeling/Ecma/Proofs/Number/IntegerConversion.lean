import Mathlib.Data.Int.ModEq
import Mathlib.Data.Rat.Floor
import Ecma.Proofs.Number.IntegerArithmetic

/-!
# Conversions to integers are modular arithmetic

The conversions to integers of a fixed width compute with doubles: the fraction is cut off,
the rest is reduced modulo `2 ^ 32` unless it is in the range already, and becomes a word. As
all of these steps are exact, the word is the truncated value modulo `2 ^ 32` (`toWord_eq`),
however large the number is, and its low bits are the truncated value modulo their number.

Clamping rounds to the nearest integer with the arithmetic of doubles too. The fraction of a
double has no more digits than the double itself, so that comparing it with one half is exact
(`fraction_exact`).
-/

namespace Ecma.Double

variable {x : Double}

/-! ## Words -/

/-- A word takes an integer that fits as it is. -/
theorem saturate_eq (hx : x.isNaN = false) (width : Nat) (hlow : 0 ≤ x.truncate)
    (hhigh : x.truncate < 2 ^ width) : x.saturate width = BitVec.ofInt width x.truncate := by
  obtain ⟨n, hn⟩ := Int.eq_ofNat_of_zero_le hlow
  rw [hn] at hhigh
  have hfits : n ≤ 2 ^ width - 1 := Nat.le_sub_one_of_lt (by exact_mod_cast hhigh)
  rw [saturate, hx, if_neg Bool.false_ne_true, hn, Int.toNat_natCast, BitVec.ofInt_natCast]
  exact congrArg (BitVec.ofNat width) (Nat.min_eq_left hfits)

/-- A double in a range of units is truncated to an integer of that range. -/
theorem truncate_bounds {n : Nat} (hlow : 0 ≤ x.units) (hhigh : x.units < n * unitsPerOne) :
    0 ≤ x.truncate ∧ x.truncate < n := by
  have hunit : (0 : Int) < unitsPerOne := Int.natCast_pos.mpr unitsPerOne_pos
  rw [truncate, Int.tdiv_eq_ediv_of_nonneg hlow]
  exact ⟨Int.ediv_nonneg hlow hunit.le, Int.ediv_lt_of_lt_mul hunit hhigh⟩

theorem holds_wordCount : wordCount.Holds 4294967296 := holds_ofNat (by decide)

/-- **Words.** The word of a finite number is its truncated value modulo `2 ^ 32`. -/
theorem toWord_eq (h : x.isFinite = true) : x.toWord = BitVec.ofInt 32 x.truncate := by
  have hnan := isNaN_of_isFinite h
  have hcount : wordCount.units = (4294967296 : Nat) * unitsPerOne := holds_wordCount.units
  simp only [toWord, h, Bool.not_true, Bool.false_or]
  split
  · next hzero =>
    rw [truncate, units_of_isZero hzero, Int.zero_tdiv]
    rfl
  · split
    · next hrange =>
      -- in the range: the word is the number without its fraction
      simp only [lessOrEqual, lessThan, Bool.and_eq_true, decide_eq_true_eq, hcount] at hrange
      obtain ⟨⟨-, hlow⟩, -, hhigh⟩ := hrange
      have hzero : zero.units = 0 := by decide
      rw [hzero] at hlow
      obtain ⟨hnonneg, hlt⟩ := truncate_bounds hlow hhigh
      exact saturate_eq hnan 32 hnonneg hlt
    · -- not in the range: the remainder is held exactly
      have hrest := (trunc_exact h).2.euclideanRemainder holds_wordCount (by decide) (by decide)
      have hnonneg := Int.emod_nonneg x.truncate (show (4294967296 : Int) ≠ 0 by decide)
      have hlt := Int.emod_lt_of_pos x.truncate (show (0 : Int) < 4294967296 by decide)
      rw [saturate_eq (isNaN_of_isFinite hrest.isFinite) 32 (by rw [hrest.truncate]; exact hnonneg)
        (by rw [hrest.truncate]; exact hlt), hrest.truncate]
      refine BitVec.eq_of_toNat_eq ?_
      rw [BitVec.toNat_ofInt, BitVec.toNat_ofInt]
      exact congrArg Int.toNat (Int.emod_emod_of_dvd _ (dvd_refl _))

theorem toWord_of_not_isFinite (h : x.isFinite = false) : x.toWord = 0 := by
  rw [toWord, h]
  rfl

/-- The low bits of the word are those of the truncated value. -/
theorem setWidth_toWord (h : x.isFinite = true) {width : Nat} (hwidth : width ≤ 32) :
    x.toWord.setWidth width = BitVec.ofInt width x.truncate := by
  have hdvd : ((2 ^ width : Nat) : Int) ∣ (2 ^ 32 : Nat) :=
    Int.natCast_dvd_natCast.mpr (Nat.pow_dvd_pow 2 hwidth)
  have hnonneg := Int.emod_nonneg x.truncate (show ((2 ^ 32 : Nat) : Int) ≠ 0 by decide)
  refine BitVec.eq_of_toNat_eq ?_
  rw [toWord_eq h, BitVec.toNat_setWidth, BitVec.toNat_ofInt, BitVec.toNat_ofInt,
    ← Int.toNat_natCast (_ % 2 ^ width), Int.natCast_mod, Int.toNat_of_nonneg hnonneg,
    Int.emod_emod_of_dvd _ hdvd]

/-- **Unsigned integers** are the truncated value modulo `2 ^ width`. -/
theorem toUint_eq (h : x.isFinite = true) {width : Nat} (hwidth : width ≤ 32) :
    (x.toUint width : Int) = x.truncate % (2 ^ width : Nat) := by
  have hpos : (0 : Int) < (2 ^ width : Nat) := Int.natCast_pos.mpr (Nat.two_pow_pos width)
  rw [toUint, setWidth_toWord h hwidth, BitVec.toNat_ofInt,
    Int.toNat_of_nonneg (Int.emod_nonneg _ hpos.ne')]

/-- **Signed integers** are the balanced remainder of the truncated value. -/
theorem toInt_eq (h : x.isFinite = true) {width : Nat} (hwidth : width ≤ 32) :
    x.toInt width = x.truncate.bmod (2 ^ width) := by
  rw [toInt, setWidth_toWord h hwidth, BitVec.toInt_ofInt]

/-- An integer that fits the width is kept. -/
theorem toUint_of_truncate (hx : x.isFinite = true) {width n : Nat} (hwidth : width ≤ 32)
    (hn : n < 2 ^ width) (h : x.truncate = n) : x.toUint width = n := by
  have hmod := toUint_eq hx hwidth
  rw [h, ← Int.natCast_mod, Nat.mod_eq_of_lt hn] at hmod
  exact Int.natCast_inj.mp hmod

/-! ## Rounding to the nearest integer -/

/-- **Fractions.** What is left of a double without its floor is not rounded. -/
theorem fraction_exact (h : x.isFinite = true) (hsign : x.isNegative = false) :
    (x.sub x.floor).isFinite = true ∧
      (x.sub x.floor).units = (x.magnitude % unitsPerOne : Nat) := by
  obtain ⟨hfinite, hunits⟩ := x.floor.units_negate
  have hfloor := holds_floor h
  have hsum : x.units + x.floor.negate.units = (x.magnitude % unitsPerOne : Nat) := by
    rw [hunits, hfloor.units, units_of_not_isNegative hsign, Int.natCast_mod, Int.emod_def]
    ring
  -- the fraction is a multiple of the last place of the significand, and there are fewer
  have hdigits : ∃ k s, k < 2 * leadingBit ∧ s < 2046 ∧
      x.magnitude % unitsPerOne = k * 2 ^ s := by
    obtain ⟨e, he⟩ : ∃ e, 1074 = e := ⟨_, rfl⟩
    rw [unitsPerOne_eq he, magnitude_eq]
    rcases Nat.le_total x.scale e with hle | hle
    · refine ⟨x.significand % 2 ^ (e - x.scale), x.scale, ?_, by omega, ?_⟩
      · exact Nat.lt_of_le_of_lt (Nat.mod_le _ _) x.significand_lt
      · rw [← Nat.mul_mod_mul_right, ← Nat.pow_add, Nat.sub_add_cancel hle]
    · refine ⟨0, 0, by decide, by decide, ?_⟩
      rw [Nat.zero_mul]
      exact Nat.mod_eq_zero_of_dvd ((Nat.pow_dvd_pow 2 hle).mul_left _)
  obtain ⟨k, s, hk, hs, hdigits⟩ := hdigits
  obtain ⟨hfin, hadd⟩ := add_exact h (hfinite.trans hfloor.isFinite) hk hs (by
    rw [hsum, Int.natAbs_natCast, hdigits])
  exact ⟨hfin, hadd.trans hsum⟩

theorem half_exact : half.isFinite = true ∧ 2 * half.units = unitsPerOne := by decide +kernel

/-- **Rounding** with doubles is rounding the exact value. -/
theorem holds_roundHalfEven (h : x.isFinite = true) (hsign : x.isNegative = false)
    (hsmall : x.magnitude / unitsPerOne < 2 ^ 52) :
    x.roundHalfEven.Holds (roundDiv x.magnitude unitsPerOne : Nat) := by
  have hbelow : x.floor.Holds (x.magnitude / unitsPerOne : Nat) := by
    have hfloor := holds_floor h
    rwa [units_of_not_isNegative hsign, ← Int.natCast_div] at hfloor
  obtain ⟨hfraction, hunits⟩ := fraction_exact h hsign
  obtain ⟨hhalf, hhalves⟩ := half_exact
  simp only [roundHalfEven, roundDiv]
  generalize x.magnitude / unitsPerOne = q at hsmall hbelow ⊢
  generalize x.magnitude % unitsPerOne = r at hunits ⊢
  have hless : (x.sub x.floor).lessThan half = decide (2 * r < unitsPerOne) := by
    rw [lessThan, isNaN_of_isFinite hfraction, isNaN_of_isFinite hhalf, hunits]
    simp only [Bool.not_false, Bool.true_and, decide_eq_decide]
    omega
  have hgreater : half.lessThan (x.sub x.floor) = decide (unitsPerOne < 2 * r) := by
    rw [lessThan, isNaN_of_isFinite hfraction, isNaN_of_isFinite hhalf, hunits]
    simp only [Bool.not_false, Bool.true_and, decide_eq_decide]
    omega
  have heven : (x.floor.remainder (ofNat 2)).equals zero = decide (q % 2 = 0) := by
    have hodd := hbelow.remainder (holds_ofNat (n := 2) (by decide)) (by decide) (by decide)
    rw [hodd.equals holds_zero, ← Int.ofNat_tmod, decide_eq_decide]
    omega
  have hnext : (x.floor.add one).Holds (q + 1 : Nat) :=
    hbelow.add (holds_ofNat (n := 1) (by decide)) (by omega)
  simp only [hless, hgreater, heven, Bool.or_eq_true, Bool.not_eq_true', decide_eq_true_eq,
    decide_eq_false_iff_not]
  by_cases hlt : 2 * r < unitsPerOne
  · simpa [hlt] using hbelow
  · by_cases hgt : unitsPerOne < 2 * r
    · simpa [hlt, hgt] using hnext
    · by_cases hq : q % 2 = 0
      · simpa [hlt, hgt, hq] using hbelow
      · simpa [hlt, hgt, hq] using hnext

theorem holds_255 : (ofNat 255).Holds 255 := holds_ofNat (by decide)

/-- The bounds are compared in units. -/
theorem toUint8Clamp_eq (hnan : x.isNaN = false) :
    x.toUint8Clamp =
      if x.units ≤ 0 then 0
      else if 255 * unitsPerOne ≤ x.units then 255
      else (x.roundHalfEven.saturate 8).toNat := by
  have hzero : zero.isNaN = false ∧ zero.units = 0 := by decide
  rw [toUint8Clamp, lessOrEqual, lessOrEqual, hzero.1, hzero.2, hnan,
    isNaN_of_isFinite holds_255.isFinite, holds_255.units]
  simp only [Bool.not_false, Bool.true_and, Bool.false_or, decide_eq_true_eq]

/-- **Clamping** rounds the numbers between the bounds. -/
theorem toUint8Clamp_of_between (hnan : x.isNaN = false) (hlow : 0 < x.units)
    (hhigh : x.units < 255 * unitsPerOne) :
    x.toUint8Clamp = roundDiv x.magnitude unitsPerOne := by
  have hsign : x.isNegative = false := by
    refine Bool.eq_false_iff.mpr fun hneg => ?_
    rw [units_of_isNegative hneg] at hlow
    omega
  have hsmall : x.magnitude < 255 * unitsPerOne := by
    rw [units_of_not_isNegative hsign] at hhigh
    omega
  have hfinite : x.isFinite = true := by
    refine isFinite_of_not hnan (Bool.eq_false_iff.mpr fun hinf => ?_)
    have hlt := magnitude_lt_of_isInfinite hinf holds_255.isFinite
    rw [holds_255.magnitude, show (255 : Int).natAbs = 255 from rfl] at hlt
    exact hlt.not_gt hsmall
  have hquotient : x.magnitude / unitsPerOne < 255 :=
    Nat.div_lt_of_lt_mul (by rwa [Nat.mul_comm])
  have hround := holds_roundHalfEven hfinite hsign (by omega)
  have hfits : roundDiv x.magnitude unitsPerOne < 256 := by
    obtain ⟨hup, -, -, -⟩ := roundDiv_spec x.magnitude unitsPerOne_pos
    by_contra hge
    have hmul := Nat.mul_le_mul_right unitsPerOne (Nat.le_of_not_lt hge)
    have hunit := unitsPerOne_pos
    omega
  have hword : x.roundHalfEven.saturate 8 =
      BitVec.ofInt 8 (roundDiv x.magnitude unitsPerOne : Nat) := by
    have hword := saturate_eq (isNaN_of_isFinite hround.isFinite) 8
    rw [hround.truncate] at hword
    exact hword (by omega) (by omega)
  rw [toUint8Clamp_eq hnan, if_neg hlow.not_ge, if_neg hhigh.not_ge, hword, BitVec.ofInt_natCast,
    BitVec.toNat_ofNat, Nat.mod_eq_of_lt hfits]

/-! ## Exact values -/

/-- The integer that a rational number becomes when its fraction is cut off. -/
def towardZero (q : ℚ) : ℤ := if q < 0 then ⌈q⌉ else ⌊q⌋

/-- An integer is the one nearest to a rational number, the even one of two. -/
structure RoundsHalfEven (q : ℚ) (n : ℤ) : Prop where
  near : |q - n| ≤ 1 / 2
  even : |q - n| = 1 / 2 → n % 2 = 0

theorem value_neg_iff (x : Double) : x.value < 0 ↔ x.units < 0 := by
  have h := div_unitsPerOne_lt_iff (i := x.units) (j := 0)
  rwa [Int.cast_zero, zero_div, ← value_eq] at h

/-- **Truncating** in units is truncating the exact value. -/
theorem towardZero_value (x : Double) : towardZero x.value = x.truncate := by
  rw [towardZero, truncate]
  split
  · next hneg =>
    have hunits := (value_neg_iff x).mp hneg
    rw [value_eq, Rat.ceil_intCast_div_natCast, ← Int.tdiv_eq_ediv_of_nonneg (by omega),
      Int.neg_tdiv, Int.neg_neg]
  · next hneg =>
    have hunits := (value_neg_iff x).not.mp hneg
    rw [value_eq, Rat.floor_intCast_div_natCast, Int.tdiv_eq_ediv_of_nonneg (by omega)]

theorem Holds.value {a : Int} (hx : x.Holds a) : x.value = a := by
  rw [value_eq, hx.units, ← intCast_eq]

theorem roundsHalfEven_self (n : ℤ) : RoundsHalfEven n n := by
  refine ⟨by norm_num, fun h => ?_⟩
  norm_num at h

/-- Rounding a quotient gives the nearest integer. -/
theorem roundsHalfEven_roundDiv (num : Nat) {den : Nat} (hden : 0 < den) :
    RoundsHalfEven (num / den) (roundDiv num den : Nat) := by
  obtain ⟨hup, hdown, heven_up, heven_down⟩ := roundDiv_spec num hden
  generalize roundDiv num den = n at hup hdown heven_up heven_down ⊢
  have hpos : (0 : ℚ) < den := Nat.cast_pos.mpr hden
  have hup : (2 * (n * den) : ℚ) ≤ 2 * num + den := by exact_mod_cast hup
  have hdown : (2 * num : ℚ) ≤ 2 * (n * den) + den := by exact_mod_cast hdown
  have hdist : |(num / den : ℚ) - (n : ℤ)| = |(num - n * den : ℚ)| / den := by
    rw [Int.cast_natCast, div_sub' hpos.ne', abs_div, abs_of_pos hpos, mul_comm (den : ℚ)]
  constructor
  · rw [hdist, div_le_iff₀ hpos]
    exact abs_le.mpr ⟨by linarith, by linarith⟩
  · intro htie
    rw [hdist, div_eq_iff hpos.ne'] at htie
    rcases abs_cases (num - n * den : ℚ) with ⟨habs, -⟩ | ⟨habs, -⟩ <;> rw [habs] at htie
    · have heq : (2 * num : ℚ) = 2 * (n * den) + den := by linarith
      have heven := heven_down (by exact_mod_cast heq)
      omega
    · have heq : (2 * (n * den) : ℚ) = 2 * num + den := by linarith
      have heven := heven_up (by exact_mod_cast heq)
      omega

/-- **Clamping** rounds the exact value after it has been clamped. -/
theorem roundsHalfEven_toUint8Clamp (h : x.isFinite = true) :
    RoundsHalfEven (max 0 (min x.value 255)) x.toUint8Clamp := by
  have hnan := isNaN_of_isFinite h
  have hbound : (255 : ℚ) ≤ x.value ↔ 255 * (unitsPerOne : Int) ≤ x.units := by
    have hlt := div_unitsPerOne_lt_iff (i := x.units) (j := 255 * unitsPerOne)
    rw [← value_eq, ← intCast_eq] at hlt
    rw [← not_lt, ← not_lt]
    exact_mod_cast hlt.not
  by_cases hlow : x.units ≤ 0
  · have hvalue : x.value ≤ 0 := by
      rw [value_eq]
      exact div_nonpos_of_nonpos_of_nonneg (by exact_mod_cast hlow) (Nat.cast_nonneg _)
    rw [toUint8Clamp_eq hnan, if_pos hlow, max_eq_left ((min_le_left _ _).trans hvalue)]
    exact_mod_cast roundsHalfEven_self 0
  · by_cases hhigh : 255 * (unitsPerOne : Int) ≤ x.units
    · rw [toUint8Clamp_eq hnan, if_neg hlow, if_pos hhigh, min_eq_right (hbound.mpr hhigh),
        max_eq_right (by norm_num)]
      exact_mod_cast roundsHalfEven_self 255
    · have hround := toUint8Clamp_of_between hnan (by omega) (by omega)
      have hnonneg : 0 ≤ x.value := not_lt.mp ((value_neg_iff x).not.mpr (by omega))
      have hsmall : x.value ≤ 255 := (not_le.mp (hbound.not.mpr hhigh)).le
      have hvalue : x.value = x.magnitude / unitsPerOne := by
        rw [value_eq, ← natAbs_units, Nat.cast_natAbs, abs_of_nonneg (by omega)]
      rw [hround, min_eq_left hsmall, max_eq_right hnonneg, hvalue]
      exact roundsHalfEven_roundDiv x.magnitude unitsPerOne_pos

theorem towardZero_intCast (n : ℤ) : towardZero n = n := by
  rw [towardZero, Int.ceil_intCast, Int.floor_intCast, ite_self]

/-! ## The integral part -/

theorem toInteger_of_isInfinite_or_isZero (h : x.isInfinite = true ∨ x.isZero = true) :
    x.toInteger = x := by
  have hnan : x.isNaN = false := by
    rcases h with hinf | hzero
    · exact isNaN_of_isInfinite hinf
    · refine Bool.eq_false_iff.mpr fun hnan => ?_
      simp only [isNaN, isZero, magnitude_eq, significand, Bool.and_eq_true, decide_eq_true_eq,
        Nat.mul_eq_zero] at hnan hzero
      simp [hnan.1, leadingBit] at hzero
  rw [toInteger, hnan, if_neg Bool.false_ne_true, if_pos (by simpa using h)]

theorem trunc_trunc (h : x.isFinite = true) : x.trunc.trunc = x.trunc := by
  obtain ⟨hsign, hholds⟩ := trunc_exact h
  have htrunc : x.trunc = nearest x.isNegative x.truncate.natAbs 1 := by rw [trunc, if_pos h]
  rw [trunc, if_pos hholds.isFinite, hsign, hholds.truncate, htrunc]

theorem toInteger_of_isFinite (h : x.isFinite = true) :
    x.toInteger.isNegative = x.isNegative ∧ x.toInteger.Holds x.truncate := by
  cases hzero : x.isZero with
  | true =>
    rw [toInteger_of_isInfinite_or_isZero (.inr hzero)]
    refine ⟨rfl, h, ?_⟩
    rw [truncate, units_of_isZero hzero, Int.zero_tdiv, Int.zero_mul]
  | false =>
    have htrunc : x.toInteger = x.trunc := by
      rw [toInteger, isNaN_of_isFinite h, isInfinite_of_isFinite h, hzero]
      rfl
    rw [htrunc]
    exact trunc_exact h

/-- Cutting off the fraction a second time changes nothing. -/
theorem toInteger_toInteger (x : Double) : x.toInteger.toInteger = x.toInteger := by
  cases hnan : x.isNaN with
  | true =>
    have hzero : x.toInteger = zero := by rw [toInteger, if_pos hnan]
    rw [hzero]
    decide
  | false =>
    by_cases hstays : x.isInfinite = true ∨ x.isZero = true
    · have hx := toInteger_of_isInfinite_or_isZero hstays
      rw [hx, hx]
    · simp only [not_or, Bool.not_eq_true] at hstays
      have hfinite := isFinite_of_not hnan hstays.1
      have htrunc : x.toInteger = x.trunc := by
        rw [toInteger, hnan, hstays.1, hstays.2]
        rfl
      have hholds := (trunc_exact hfinite).2
      rw [htrunc, toInteger, isNaN_of_isFinite hholds.isFinite, if_neg Bool.false_ne_true]
      split
      · rfl
      · exact trunc_trunc hfinite

/-- **Integers from doubles.** Let `t` be the exact value of a double, its fraction cut off.

* Cutting off the fraction gives a double with the sign of the number that holds `t`; a zero
  and an infinity stay what they are, and what is not a number becomes plus zero. A second time
  nothing changes.
* The unsigned integer of a width of up to 32 bits is `t` modulo `2 ^ width`, and the signed
  one is the number in its range that is congruent to `t`; so integers in the range are kept.
  Without a finite value they are zero.
* The clamped integer is the exact value, put into the range from `0` to `255` and rounded to
  the nearest integer, the even one of two. -/
theorem integer_conversions_exact (x : Double) :
    (x.isNaN = true → x.toInteger = zero) ∧
    (x.isInfinite = true ∨ x.isZero = true → x.toInteger = x) ∧
    (x.isFinite = true → x.toInteger.isFinite = true ∧
      x.toInteger.isNegative = x.isNegative ∧ x.toInteger.value = towardZero x.value) ∧
    x.toInteger.toInteger = x.toInteger ∧
    (∀ width, 0 < width → width ≤ 32 →
      (x.isFinite = true →
        (x.toUint width : ℤ) = towardZero x.value % 2 ^ width ∧
        x.toInt width ≡ towardZero x.value [ZMOD 2 ^ width] ∧
        -2 ^ (width - 1) ≤ x.toInt width ∧ x.toInt width < 2 ^ (width - 1) ∧
        ∀ n : ℤ, x.value = n → (0 ≤ n → n < 2 ^ width → x.toUint width = n) ∧
          (-2 ^ (width - 1) ≤ n → n < 2 ^ (width - 1) → x.toInt width = n)) ∧
      (x.isFinite = false → x.toUint width = 0 ∧ x.toInt width = 0)) ∧
    (x.isFinite = true → RoundsHalfEven (max 0 (min x.value 255)) x.toUint8Clamp) ∧
    (x.isInfinite = true → x.toUint8Clamp = if x.isNegative then 0 else 255) ∧
    (x.isNaN = true → x.toUint8Clamp = 0) := by
  refine ⟨fun hnan => ?_, toInteger_of_isInfinite_or_isZero, fun hfinite => ?_,
    x.toInteger_toInteger, fun width hpos hwidth => ⟨fun hfinite => ?_, fun hnot => ?_⟩,
    roundsHalfEven_toUint8Clamp, fun hinf => ?_, fun hnan => ?_⟩
  · rw [toInteger, if_pos hnan]
  · obtain ⟨hsign, hholds⟩ := toInteger_of_isFinite hfinite
    exact ⟨hholds.isFinite, hsign, by rw [hholds.value, towardZero_value]⟩
  · rw [towardZero_value]
    refine ⟨?_, ?_, BitVec.le_toInt _, BitVec.toInt_lt, fun n hn => ?_⟩
    · rw [toUint_eq hfinite hwidth]
      norm_cast
    · rw [toInt_eq hfinite hwidth]
      exact_mod_cast Int.bmod_emod
    · have htruncate : x.truncate = n := by rw [← towardZero_value, hn, towardZero_intCast]
      refine ⟨fun hlow hhigh => ?_, fun hlow hhigh => ?_⟩
      · rw [toUint_eq hfinite hwidth, htruncate]
        exact Int.emod_eq_of_lt hlow (by exact_mod_cast hhigh)
      · rw [toInt, setWidth_toWord hfinite hwidth, htruncate]
        exact BitVec.toInt_ofInt_eq_self hpos hlow hhigh
  · rw [toUint, toInt, toWord_of_not_isFinite hnot]
    simp
  · have hlarge := magnitude_lt_of_isInfinite hinf holds_255.isFinite
    rw [holds_255.magnitude, show (255 : Int).natAbs = 255 from rfl] at hlarge
    rw [toUint8Clamp_eq (isNaN_of_isInfinite hinf), units]
    cases x.isNegative with
    | true => simp
    | false =>
      rw [if_neg Bool.false_ne_true, if_neg (by omega), if_pos (by exact_mod_cast hlarge.le)]
      rfl
  · rw [toUint8Clamp, hnan]
    rfl

/-- A number far below the range of words, one that lies half way between two integers, a
negative fraction, an infinity and what is not a number. -/
theorem integer_conversions_exact_at_extremes :
    ((⟨0xC415AF1D78B58C40⟩ : Double).value = (-100000000000000000000 : ℤ) ∧
      ((⟨0xC415AF1D78B58C40⟩ : Double).toUint 32 : ℤ) = -100000000000000000000 % 2 ^ 32 ∧
      (⟨0xC415AF1D78B58C40⟩ : Double).toInt 16 ≡ -100000000000000000000 [ZMOD 2 ^ 16]) ∧
    ((⟨0xC1E0000000000000⟩ : Double).value = (-2147483648 : ℤ) ∧
      (⟨0xC1E0000000000000⟩ : Double).toInt 32 = -2147483648) ∧
    ((⟨0x406FD00000000000⟩ : Double).value = 509 / 2 ∧
      RoundsHalfEven (max 0 (min (509 / 2) 255)) (⟨0x406FD00000000000⟩ : Double).toUint8Clamp) ∧
    (⟨0xBFE0000000000000⟩ : Double).toInteger.isNegative = true ∧
    (infinity.toInteger = infinity ∧ infinity.toInt 8 = 0 ∧ infinity.toUint8Clamp = 255) ∧
    nan.toInteger = zero ∧ nan.toUint8Clamp = 0 := by
  have hfar : (⟨0xC415AF1D78B58C40⟩ : Double).value = (-100000000000000000000 : ℤ) := by
    have hfields : (⟨0xC415AF1D78B58C40⟩ : Double).isNegative = true ∧
        (⟨0xC415AF1D78B58C40⟩ : Double).significand = 6103515625000000 ∧
        (⟨0xC415AF1D78B58C40⟩ : Double).exponentField = 1089 := by decide
    rw [value, hfields.1, hfields.2.1, hfields.2.2]
    norm_num
  have hleast : (⟨0xC1E0000000000000⟩ : Double).value = (-2147483648 : ℤ) := by
    have hfields : (⟨0xC1E0000000000000⟩ : Double).isNegative = true ∧
        (⟨0xC1E0000000000000⟩ : Double).significand = 4503599627370496 ∧
        (⟨0xC1E0000000000000⟩ : Double).exponentField = 1054 := by decide
    rw [value, hfields.1, hfields.2.1, hfields.2.2]
    norm_num
  have htie : (⟨0x406FD00000000000⟩ : Double).value = 509 / 2 := by
    have hfields : (⟨0x406FD00000000000⟩ : Double).isNegative = false ∧
        (⟨0x406FD00000000000⟩ : Double).significand = 8954422696607744 ∧
        (⟨0x406FD00000000000⟩ : Double).exponentField = 1030 := by decide
    rw [value, hfields.1, hfields.2.1, hfields.2.2]
    norm_num
  refine ⟨⟨hfar, ?_, ?_⟩, ⟨hleast, ?_⟩, ⟨htie, ?_⟩, ?_, ⟨?_, ?_, ?_⟩, ?_, ?_⟩
  · obtain ⟨-, -, -, -, hwords, -⟩ := integer_conversions_exact ⟨0xC415AF1D78B58C40⟩
    have hword := ((hwords 32 (by decide) (by decide)).1 (by decide)).1
    rwa [hfar, towardZero_intCast] at hword
  · obtain ⟨-, -, -, -, hwords, -⟩ := integer_conversions_exact ⟨0xC415AF1D78B58C40⟩
    have hword := ((hwords 16 (by decide) (by decide)).1 (by decide)).2.1
    rwa [hfar, towardZero_intCast] at hword
  · obtain ⟨-, -, -, -, hwords, -⟩ := integer_conversions_exact ⟨0xC1E0000000000000⟩
    exact (((hwords 32 (by decide) (by decide)).1 (by decide)).2.2.2.2 _ hleast).2
      (by decide) (by decide)
  · obtain ⟨-, -, -, -, -, hclamp, -⟩ := integer_conversions_exact ⟨0x406FD00000000000⟩
    have hround := hclamp (by decide)
    rwa [htie] at hround
  · obtain ⟨-, -, hpart, -⟩ := integer_conversions_exact ⟨0xBFE0000000000000⟩
    exact (hpart (by decide)).2.1
  · exact (integer_conversions_exact infinity).2.1 (.inl (by decide))
  · obtain ⟨-, -, -, -, hwords, -⟩ := integer_conversions_exact infinity
    exact ((hwords 8 (by decide) (by decide)).2 (by decide)).2
  · obtain ⟨-, -, -, -, -, -, hclamp, -⟩ := integer_conversions_exact infinity
    exact hclamp (by decide)
  · exact (integer_conversions_exact nan).1 (by decide)
  · obtain ⟨-, -, -, -, -, -, -, hclamp⟩ := integer_conversions_exact nan
    exact hclamp (by decide)

end Ecma.Double
