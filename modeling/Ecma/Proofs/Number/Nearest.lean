import Mathlib.Algebra.Order.Field.Power
import Ecma.Number.Decimal
import Ecma.Proofs.Number.Neighbours

/-!
# Rounding gives the nearest double

All rounding goes through `gridRound`: the scale is chosen so that the significand has
its full length (`gridRound_bounds`), and the quotient is rounded to an integer, so that
a number that is on the grid already stays there (`gridRound_point`). The place that is
put together from the two settles the number (`settles_gridRound`), a carry into the next
power of two and the step to infinity included. So a quotient, an integer and a decimal
are rounded to the nearest double (`isNearest_nearest`, `Decimal.isNearest_toDouble`);
for decimals the two shortcuts for very great and very small ones are right.
-/

namespace Ecma

/-! ## Integers -/

/-- Rounding a quotient goes at most half a unit up or down, and half a unit only to an
even integer. -/
theorem roundDiv_spec (num : Nat) {den : Nat} (h : 0 < den) :
    2 * (roundDiv num den * den) ≤ 2 * num + den ∧
      2 * num ≤ 2 * (roundDiv num den * den) + den ∧
      (2 * (roundDiv num den * den) = 2 * num + den → roundDiv num den % 2 = 0) ∧
      (2 * num = 2 * (roundDiv num den * den) + den → roundDiv num den % 2 = 0) := by
  have hdiv : num / den * den + num % den = num := Nat.div_add_mod' num den
  have hmod : num % den < den := Nat.mod_lt num h
  have hnext : (num / den + 1) * den = num / den * den + den := Nat.succ_mul _ _
  simp only [roundDiv]
  split
  · omega
  · split
    · rw [hnext]
      omega
    · split
      · omega
      · rw [hnext]
        omega

/-- The scale makes the integer part of the quotient as long as a significand, or it is the
least one. -/
theorem gridScale_spec (p minScale num : Nat) {den : Nat} (h : 0 < den) :
    (gridScale (p + 1) minScale num den = minScale ∨
        2 ^ p * (den * 2 ^ gridScale (p + 1) minScale num den) ≤ num) ∧
      num < 2 ^ (p + 1) * (den * 2 ^ gridScale (p + 1) minScale num den) := by
  have hgrid : gridScale (p + 1) minScale num den =
      max (bitLength (num / den) - (p + 1)) minScale := rfl
  have hpull (a s : Nat) : 2 ^ a * (den * 2 ^ s) = 2 ^ (a + s) * den := by
    rw [Nat.pow_add]
    ring
  have hupper : num / den < 2 ^ bitLength (num / den) := by
    rw [bitLength]
    split
    · next hzero => rw [hzero]; exact Nat.one_pos
    · exact Nat.lt_log2_self
  rw [hgrid, hpull, hpull]
  constructor
  · rcases Nat.lt_or_ge minScale (bitLength (num / den) - (p + 1)) with hs | hs
    · refine .inr ((Nat.le_div_iff_mul_le h).mp ?_)
      have hne : num / den ≠ 0 := by
        intro hzero
        rw [hzero] at hs
        simp [bitLength] at hs
      have hlen : bitLength (num / den) = (num / den).log2 + 1 := by rw [bitLength, if_neg hne]
      rw [Nat.max_eq_left hs.le]
      rw [hlen] at hs ⊢
      rw [show p + ((num / den).log2 + 1 - (p + 1)) = (num / den).log2 by omega]
      exact Nat.log2_self_le hne
    · exact .inl (Nat.max_eq_right hs)
  · refine (Nat.div_lt_iff_lt_mul h).mp (hupper.trans_le ?_)
    exact Nat.pow_le_pow_right Nat.two_pos (by omega)

/-- What is rounded to the grid has its leading bit unless the scale is the least one, and
carries at most once. -/
theorem gridRound_bounds (p minScale num : Nat) {den : Nat} (h : 0 < den) :
    (gridRound (p + 1) minScale num den).1 ≤ 2 ^ (p + 1) ∧
      (2 ^ p ≤ (gridRound (p + 1) minScale num den).1 ∨
        (gridRound (p + 1) minScale num den).2 = minScale) := by
  have hgrid : gridRound (p + 1) minScale num den =
      (roundDiv num (den * 2 ^ gridScale (p + 1) minScale num den),
        gridScale (p + 1) minScale num den) := rfl
  obtain ⟨hscale, hsize⟩ := gridScale_spec p minScale num h
  rw [hgrid]
  generalize gridScale (p + 1) minScale num den = s at hscale hsize
  have hstep : 0 < den * 2 ^ s := Nat.mul_pos h (Nat.two_pow_pos s)
  obtain ⟨hup, hdown, -, -⟩ := roundDiv_spec num hstep
  dsimp only
  generalize roundDiv num (den * 2 ^ s) = m at hup hdown
  constructor
  · by_contra hlt
    have := Nat.mul_le_mul_right (den * 2 ^ s) (Nat.lt_of_not_le hlt)
    rw [Nat.succ_mul] at this
    omega
  · refine hscale.symm.imp_left fun hle => ?_
    by_contra hlt
    have := Nat.mul_le_mul_right (den * 2 ^ s) (Nat.lt_of_not_le hlt)
    rw [Nat.succ_mul] at this
    omega

theorem minScale_le_gridRound (p minScale num den : Nat) :
    minScale ≤ (gridRound p minScale num den).2 := Nat.le_max_right _ _

/-- **A point of the grid** is rounded to itself: its scale is at most that of the last digit,
so that nothing is cut off. -/
theorem gridRound_point (p minScale : Nat) {k s : Nat} (hk : k < 2 ^ (p + 1)) (hs : minScale ≤ s) :
    ∃ t ≤ s, gridRound (p + 1) minScale (k * 2 ^ s) 1 = (k * 2 ^ (s - t), t) := by
  have hgrid : gridRound (p + 1) minScale (k * 2 ^ s) 1 =
      (roundDiv (k * 2 ^ s) (1 * 2 ^ gridScale (p + 1) minScale (k * 2 ^ s) 1),
        gridScale (p + 1) minScale (k * 2 ^ s) 1) := rfl
  obtain ⟨hscale, -⟩ := gridScale_spec p minScale (k * 2 ^ s) Nat.one_pos
  generalize gridScale (p + 1) minScale (k * 2 ^ s) 1 = t at hgrid hscale
  rw [Nat.one_mul] at hgrid hscale
  have ht : t ≤ s := by
    rcases hscale with rfl | hle
    · exact hs
    · have hlt : 2 ^ p * 2 ^ t < 2 ^ p * 2 ^ (s + 1) := by
        calc 2 ^ p * 2 ^ t ≤ k * 2 ^ s := hle
          _ < 2 ^ (p + 1) * 2 ^ s := Nat.mul_lt_mul_of_pos_right hk (Nat.two_pow_pos s)
          _ = 2 ^ p * 2 ^ (s + 1) := by rw [Nat.pow_succ, Nat.pow_succ]; ring
      have hpow : 2 ^ t < 2 ^ (s + 1) := Nat.lt_of_mul_lt_mul_left hlt
      exact Nat.lt_succ_iff.mp ((Nat.pow_lt_pow_iff_right (by decide)).mp hpow)
  have hsplit : k * 2 ^ s = k * 2 ^ (s - t) * 2 ^ t := by
    rw [Nat.mul_assoc, ← Nat.pow_add, Nat.sub_add_cancel ht]
  refine ⟨t, ht, ?_⟩
  rw [hgrid, hsplit, roundDiv_mul_self _ (Nat.two_pow_pos t)]

namespace Double

/-! ## Quotients -/

/-- The next place is at least a step away. -/
theorem magnitudeAt_above {s m : Nat} (hlow : leadingBit ≤ m ∨ s = 0)
    (hhigh : m ≤ 2 * leadingBit) :
    m * 2 ^ s + 2 ^ s ≤ magnitudeAt (s * leadingBit + m + 1) := by
  have hscale : s ≤ scaleAt (s * leadingBit + m) := by
    simp only [scaleAt, leadingBit] at *
    omega
  rw [magnitudeAt_succ, magnitudeAt_eq hlow hhigh]
  exact Nat.add_le_add_left (Nat.pow_le_pow_right Nat.two_pos hscale) _

/-- So is the place before, unless the significand is the least one of its scale. -/
theorem magnitudeAt_below {s m : Nat} (hlow : leadingBit ≤ m ∨ s = 0)
    (hhigh : m ≤ 2 * leadingBit) (hpos : 0 < s * leadingBit + m) :
    magnitudeAt (s * leadingBit + m - 1) + 2 ^ s ≤ m * 2 ^ s ∨
      (magnitudeAt (s * leadingBit + m - 1) < m * 2 ^ s ∧ m = leadingBit ∧ s ≠ 0) := by
  have hpred := magnitudeAt_succ (s * leadingBit + m - 1)
  rw [Nat.sub_add_cancel hpos, magnitudeAt_eq hlow hhigh] at hpred
  rw [hpred]
  by_cases hsame : s ≤ scaleAt (s * leadingBit + m - 1)
  · exact .inl (Nat.add_le_add_left (Nat.pow_le_pow_right Nat.two_pos hsame) _)
  · refine .inr ⟨Nat.lt_add_of_pos_right (Nat.two_pow_pos _), ?_, by omega⟩
    simp only [scaleAt, leadingBit] at *
    omega

/-- A number of units within half a step of a significand settles its place. Below the least
significand of a scale the steps are smaller, so that the number must not lie there. -/
theorem settles_significand {s m : Nat} {u : ℚ} (hlow : leadingBit ≤ m ∨ s = 0)
    (hhigh : m ≤ 2 * leadingBit) (hleast : s = 0 ∨ (leadingBit * 2 ^ s : ℚ) ≤ u) (hu : 0 ≤ u)
    (hup : (2 * (m * 2 ^ s) : ℚ) ≤ 2 * u + 2 ^ s) (hdown : 2 * u ≤ (2 * (m * 2 ^ s) + 2 ^ s : ℚ))
    (heven : (2 * (m * 2 ^ s) : ℚ) = 2 * u + 2 ^ s ∨ 2 * u = (2 * (m * 2 ^ s) + 2 ^ s : ℚ) →
      m % 2 = 0) : Settles (s * leadingBit + m) u := by
  have hmagnitude : (magnitudeAt (s * leadingBit + m) : ℚ) = m * 2 ^ s := by
    exact_mod_cast magnitudeAt_eq hlow hhigh
  have habove : (m * 2 ^ s + 2 ^ s : ℚ) ≤ magnitudeAt (s * leadingBit + m + 1) := by
    exact_mod_cast magnitudeAt_above hlow hhigh
  have hparity : (s * leadingBit + m) % 2 = m % 2 := by
    simp only [leadingBit]
    omega
  -- half way down to the place before is not above the number, and on it only half a step down
  have hbelow : (magnitudeAt (s * leadingBit + m - 1) + m * 2 ^ s : ℚ) ≤ 2 * u ∧
      ((magnitudeAt (s * leadingBit + m - 1) + m * 2 ^ s : ℚ) = 2 * u → m % 2 = 0) := by
    rcases Nat.eq_zero_or_pos (s * leadingBit + m) with hzero | hpos
    · obtain rfl : m = 0 := by omega
      rw [hzero, Nat.zero_sub, magnitudeAt_zero, Nat.cast_zero, zero_mul, zero_add]
      exact ⟨by linarith, fun _ => rfl⟩
    · rcases magnitudeAt_below hlow hhigh hpos with hstep | ⟨hstep, rfl, hs⟩
      · have hstep : (magnitudeAt (s * leadingBit + m - 1) + 2 ^ s : ℚ) ≤ m * 2 ^ s := by
          exact_mod_cast hstep
        exact ⟨by linarith, fun heq => heven (.inl (by linarith))⟩
      · have hstep : (magnitudeAt (s * leadingBit + leadingBit - 1) : ℚ) < leadingBit * 2 ^ s := by
          exact_mod_cast hstep
        have hnot := hleast.resolve_left hs
        exact ⟨by linarith, fun heq => absurd heq (by linarith : _ < 2 * u).ne⟩
  refine ⟨?_, ?_, fun heq => ?_, fun heq => ?_⟩
  · rw [hmagnitude]
    exact hbelow.1
  · rw [hmagnitude]
    linarith
  · rw [hmagnitude] at heq
    rw [hparity]
    exact hbelow.2 heq
  · rw [hmagnitude] at heq
    rw [hparity]
    exact heven (.inr (by linarith))

/-- The bounds of a significand that is rounded to the digits of a double. -/
theorem gridRound_significand (num : Nat) {den : Nat} (hden : 0 < den) :
    (gridRound 53 0 num den).1 ≤ 2 * leadingBit ∧
      (leadingBit ≤ (gridRound 53 0 num den).1 ∨ (gridRound 53 0 num den).2 = 0) :=
  gridRound_bounds 52 0 num hden

/-- **Rounding to the grid** gives the significand and the scale of a place that the
quotient settles. -/
theorem settles_gridRound (num : Nat) {den : Nat} (hden : 0 < den) :
    Settles ((gridRound 53 0 num den).2 * leadingBit + (gridRound 53 0 num den).1)
      (num / den) := by
  have hgrid : gridRound 53 0 num den = (roundDiv num (den * 2 ^ gridScale 53 0 num den),
    gridScale 53 0 num den) := rfl
  obtain ⟨hscale, -⟩ := gridScale_spec 52 0 num hden
  change gridScale 53 0 num den = 0 ∨ leadingBit * _ ≤ num at hscale
  obtain ⟨hhigh, hlow⟩ := gridRound_significand num hden
  rw [hgrid] at hhigh hlow ⊢
  dsimp only at hhigh hlow ⊢
  generalize gridScale 53 0 num den = s at hscale hhigh hlow
  have hstep : 0 < den * 2 ^ s := Nat.mul_pos hden (Nat.two_pow_pos s)
  obtain ⟨hup, hdown, heven_up, heven_down⟩ := roundDiv_spec num hstep
  generalize roundDiv num (den * 2 ^ s) = m at hup hdown heven_up heven_down hhigh hlow
  have hpos : (0 : ℚ) < den := Nat.cast_pos.mpr hden
  have hnum : (num / den : ℚ) * den = num := div_mul_cancel₀ _ hpos.ne'
  have hmiddle : (2 * (num / den) : ℚ) * den = (2 * num : Nat) := by
    push_cast
    rw [mul_assoc, hnum]
  have hpoint : (2 * (m * 2 ^ s) : ℚ) * den = (2 * (m * (den * 2 ^ s)) : Nat) := by
    push_cast
    ring
  have hhalf : (2 ^ s : ℚ) * den = (den * 2 ^ s : Nat) := by
    push_cast
    ring
  refine settles_significand hlow hhigh ?_ (by positivity) ?_ ?_ ?_
  · refine hscale.imp_right fun hle => (le_div_iff₀ hpos).mpr ?_
    rw [mul_assoc, hhalf]
    exact_mod_cast hle
  · refine le_of_mul_le_mul_right ?_ hpos
    rw [add_mul, hpoint, hmiddle, hhalf]
    exact_mod_cast hup
  · refine le_of_mul_le_mul_right ?_ hpos
    rw [add_mul, hpoint, hmiddle, hhalf]
    exact_mod_cast hdown
  · rintro (heq | heq) <;>
      rw [← mul_left_inj' hpos.ne', add_mul, hpoint, hmiddle, hhalf] at heq
    · exact heven_up (by exact_mod_cast heq)
    · exact heven_down (by exact_mod_cast heq)

/-- A quotient of units is rounded to the nearest double. -/
theorem isNearest_ofUnits (negative : Bool) (num : Nat) {den : Nat} (hden : 0 < den) {q : ℚ}
    (hq : q * unitsPerOne = num / den) : IsNearest negative q (ofUnits negative num den) := by
  have hsettles := settles_gridRound num hden
  have hbits : ofUnits negative num den = assemble negative
      (min ((gridRound 53 0 num den).2 * leadingBit + (gridRound 53 0 num den).1)
        infinityBits) := rfl
  rw [hbits]
  generalize (gridRound 53 0 num den).2 * leadingBit + (gridRound 53 0 num den).1 = l at hsettles
  rw [← hq] at hsettles
  rcases Nat.lt_or_ge l infinityBits with hl | hl
  · rw [Nat.min_eq_left hl.le]
    exact hsettles.isNearest hl negative
  · rw [Nat.min_eq_right hl]
    refine isNearest_infinity ?_ negative
    have hunit : (0 : ℚ) < unitsPerOne := Nat.cast_pos.mpr unitsPerOne_pos
    have hfirst : magnitudeAt (infinityBits - 1) ≤ magnitudeAt (l - 1) :=
      magnitudeAt_strictMono.monotone (by omega)
    have hsecond : magnitudeAt infinityBits ≤ magnitudeAt l :=
      magnitudeAt_strictMono.monotone hl
    have hsum : (magnitudeAt (infinityBits - 1) + magnitudeAt infinityBits : ℚ) ≤
        magnitudeAt (l - 1) + magnitudeAt l := by exact_mod_cast Nat.add_le_add hfirst hsecond
    rw [magnitudeAt_infinityBits] at hsum
    have hlow := hsettles.low
    exact le_of_mul_le_mul_right (by linarith) hunit

/-- **A quotient** is rounded to the nearest double. -/
theorem isNearest_nearest (negative : Bool) (num : Nat) {den : Nat} (hden : 0 < den) :
    IsNearest negative (num / den) (nearest negative num den) := by
  refine isNearest_ofUnits negative _ hden ?_
  push_cast
  ring

theorem isNearest_ofNat (n : Nat) : IsNearest false n (ofNat n) := by
  have h := isNearest_nearest false n Nat.one_pos
  rwa [Nat.cast_one, div_one] at h

/-- The nearest double with the other sign. -/
theorem IsNearest.withSign {q : ℚ} {x : Double} (h : IsNearest false q x) (negative : Bool) :
    IsNearest negative q (withSign negative x) := by
  cases negative with
  | false => exact h
  | true =>
    have hnegate : Double.withSign true x = assemble true x.place := by
      rw [Double.withSign, if_pos rfl, negate, h.isNegative_eq, place]
      rfl
    obtain ⟨hplace, hsign⟩ := place_assemble true x.place_lt
    have hvalue : |(assemble true x.place).value| = |x.value| := by
      rw [abs_value, abs_value, hplace]
    have hfinite : (assemble true x.place).isFinite = x.isFinite := by
      rw [Bool.eq_iff_iff, isFinite_iff_place, isFinite_iff_place, hplace]
    have hinfinite : (assemble true x.place).isInfinite = x.isInfinite := by
      rw [Bool.eq_iff_iff, isInfinite_iff_place, isInfinite_iff_place, hplace]
    have hnan : (assemble true x.place).isNaN = x.isNaN := by
      rw [Bool.eq_iff_iff, isNaN_iff_place, isNaN_iff_place, hplace]
    have hsignificand : (assemble true x.place).significand = x.significand := by
      rw [significand_eq, significand_eq, hplace]
    rw [hnegate]
    refine ⟨hnan.trans h.isNaN_eq, hsign, ?_, ?_, ?_⟩
    · rw [hinfinite]
      exact h.isInfinite_iff
    · rw [hfinite, hvalue]
      exact h.closest
    · rw [hfinite, hvalue, hsignificand]
      exact h.even

end Double

/-! ## Decimals -/

namespace Decimal

/-- The number that a decimal is. -/
def value (d : Decimal) : ℚ := d.digits * 10 ^ d.exponent

/-- A number with `k` decimal digits lies between two powers of ten. -/
theorem decimalLength_spec {n : Nat} (h : n ≠ 0) :
    10 ^ (decimalLength n - 1) ≤ n ∧ n < 10 ^ decimalLength n := by
  have hlen : decimalLength n = (Nat.toDigits 10 n).length := if_neg h
  have hpos : 0 < (Nat.toDigits 10 n).length := List.length_pos_iff.mpr Nat.toDigits_ne_nil
  rw [hlen]
  refine ⟨?_, (Nat.length_toDigits_le_iff (by decide) hpos).mp le_rfl⟩
  by_contra hlt
  rcases Nat.eq_zero_or_pos ((Nat.toDigits 10 n).length - 1) with hzero | hone
  · rw [hzero, Nat.pow_zero] at hlt
    omega
  · have := (Nat.length_toDigits_le_iff (by decide) hone).mpr (Nat.lt_of_not_le hlt)
    omega

/-- The value of a decimal lies between two powers of ten. -/
theorem value_bounds {d : Decimal} (h : d.digits ≠ 0) :
    (10 : ℚ) ^ ((decimalLength d.digits : Int) + d.exponent - 1) ≤ d.value ∧
      d.value < 10 ^ ((decimalLength d.digits : Int) + d.exponent) := by
  obtain ⟨hlow, hhigh⟩ := decimalLength_spec h
  have hten : (0 : ℚ) < 10 ^ d.exponent := by positivity
  have hlen : 0 < decimalLength d.digits := by
    by_contra hzero
    rw [Nat.eq_zero_of_not_pos hzero, Nat.pow_zero] at hhigh
    omega
  constructor
  · have hexp : (decimalLength d.digits : Int) + d.exponent - 1 =
        ((decimalLength d.digits - 1 : Nat) : Int) + d.exponent := by omega
    rw [value, hexp, zpow_add₀ (by norm_num), zpow_natCast]
    exact mul_le_mul_of_nonneg_right (by exact_mod_cast hlow) hten.le
  · rw [value, zpow_add₀ (by norm_num), zpow_natCast]
    exact mul_lt_mul_of_pos_right (by exact_mod_cast hhigh) hten

/-- A number below this power of ten is less than half a unit. -/
theorem isNearest_zero {q : ℚ} (hzero : 0 ≤ q) (h : q < 10 ^ (underflowPower - 1)) :
    Double.IsNearest false q .zero := by
  have hunit : (0 : ℚ) < Double.unitsPerOne := Nat.cast_pos.mpr Double.unitsPerOne_pos
  have hsmall : 2 * (q * Double.unitsPerOne) < 1 := by
    have hpow : (2 * Double.unitsPerOne : ℚ) ≤ 10 ^ 331 := by
      have hnat : 2 * Double.unitsPerOne ≤ 10 ^ 331 := by decide +kernel
      exact_mod_cast hnat
    have hten : (10 : ℚ) ^ (underflowPower - 1) = (10 ^ 331)⁻¹ := by
      rw [show underflowPower - 1 = -((331 : Nat) : Int) by decide, zpow_neg, zpow_natCast]
    rw [hten] at h
    calc 2 * (q * Double.unitsPerOne) = q * (2 * Double.unitsPerOne) := by ring
      _ ≤ q * 10 ^ 331 := mul_le_mul_of_nonneg_left hpow hzero
      _ < (10 ^ 331)⁻¹ * 10 ^ 331 := mul_lt_mul_of_pos_right h (by positivity)
      _ = 1 := inv_mul_cancel₀ (by positivity)
  have hone : Double.magnitudeAt (0 + 1) = 1 := by decide
  have hsettles : Double.Settles 0 (q * Double.unitsPerOne) := by
    refine ⟨?_, ?_, fun _ => rfl, fun _ => rfl⟩
    · rw [Nat.zero_sub, Double.magnitudeAt_zero]
      push_cast
      linarith [mul_nonneg hzero hunit.le]
    · rw [hone, Double.magnitudeAt_zero]
      push_cast
      linarith
  exact hsettles.isNearest (by decide) false

/-- **A decimal** is rounded to the nearest double. -/
theorem isNearest_toDouble (d : Decimal) : Double.IsNearest false d.value d.toDouble := by
  simp only [toDouble, Bool.or_eq_true, decide_eq_true_eq]
  split
  · next h =>
    refine isNearest_zero (by rw [value]; positivity) ?_
    by_cases hdigits : d.digits = 0
    · rw [value, hdigits, Nat.cast_zero, zero_mul]
      positivity
    · refine (value_bounds hdigits).2.trans_le (zpow_le_zpow_right₀ (by norm_num) ?_)
      have := h.resolve_left hdigits
      omega
  · next h =>
    have hdigits : d.digits ≠ 0 := fun hzero => h (.inl hzero)
    split
    · next hgreat =>
      refine Double.isNearest_infinity ?_ false
      have hbound : Double.overflowBound ≤ 10 ^ overflowPower := by
        have hnat : 2 ^ 1024 ≤ 10 ^ 310 := by decide +kernel
        have hpow : (2 : ℚ) ^ 1024 ≤ 10 ^ 310 := by exact_mod_cast hnat
        have hpos : (0 : ℚ) < 2 ^ 970 := pow_pos two_pos 970
        rw [show overflowPower = ((310 : Nat) : Int) from rfl, zpow_natCast, Double.overflowBound]
        exact (sub_le_self _ hpos.le).trans hpow
      refine hbound.trans (le_trans (zpow_le_zpow_right₀ (by norm_num) ?_)
        (value_bounds hdigits).1)
      omega
    · split
      · next hexp =>
        have hvalue : d.value = (d.digits * Nat.pow 10 d.exponent.toNat : Nat) / (1 : Nat) := by
          rw [value, Nat.cast_one, div_one, Nat.cast_mul]
          congr 1
          change (10 : ℚ) ^ d.exponent = ((10 ^ d.exponent.toNat : Nat) : ℚ)
          rw [Nat.cast_pow, Nat.cast_ofNat, ← zpow_natCast, Int.toNat_of_nonneg hexp]
        rw [hvalue]
        exact Double.isNearest_nearest false _ Nat.one_pos
      · next hexp =>
        have hvalue : d.value = d.digits / (Nat.pow 10 d.exponent.natAbs : Nat) := by
          have hnatAbs : d.exponent = -(d.exponent.natAbs : Int) := by omega
          rw [value, div_eq_mul_inv]
          congr 1
          change (10 : ℚ) ^ d.exponent = ((10 ^ d.exponent.natAbs : Nat) : ℚ)⁻¹
          rw [Nat.cast_pow, Nat.cast_ofNat, ← zpow_natCast, ← zpow_neg, ← hnatAbs]
        rw [hvalue]
        exact Double.isNearest_nearest false _ (Nat.pow_pos (by decide))

end Decimal

end Ecma
