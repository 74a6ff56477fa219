import Ecma.Proofs.Number.Nearest

/-!
# Arithmetic on the integers that doubles hold

A double **holds** an integer if that is its exact value. Every operation on doubles is
rounded, but a result of up to 53 binary digits is not changed by rounding, wherever its last
digit stands (`ofUnits_exact`). So as long as the integers stay below `2 ^ 53` the arithmetic
of doubles is that of the integers that they hold: `Holds.add`, `Holds.remainder`,
`Holds.euclideanRemainder`. Cutting off the fraction gives a double that holds an integer, of
whatever size (`trunc_exact`, `holds_floor`): above `2 ^ 53` there is no fraction.
-/

namespace Ecma.Double

variable {x y : Double} {a b : Int}

/-! ## Results that are not rounded -/

/-- **A number of up to 53 binary digits** is held by a double, unless it is too great. -/
theorem ofUnits_exact (negative : Bool) {k s : Nat} (hk : k < 2 * leadingBit) (hs : s < 2046) :
    (ofUnits negative (k * 2 ^ s) 1).isFinite = true ∧
      (ofUnits negative (k * 2 ^ s) 1).isNegative = negative ∧
      (ofUnits negative (k * 2 ^ s) 1).magnitude = k * 2 ^ s := by
  obtain ⟨t, ht, hgrid⟩ : ∃ t ≤ s, gridRound 53 0 (k * 2 ^ s) 1 = (k * 2 ^ (s - t), t) :=
    gridRound_point 52 0 hk (Nat.zero_le s)
  obtain ⟨hhigh, hlow⟩ := gridRound_significand (k * 2 ^ s) Nat.one_pos
  rw [hgrid] at hhigh hlow
  -- at the greatest scale the significand is `k` itself, which has not carried
  have hplace : t * leadingBit + k * 2 ^ (s - t) < infinityBits := by
    rcases ht.lt_or_eq with hlt | rfl
    · simp only [infinityBits, leadingBit] at *
      omega
    · rw [Nat.sub_self, Nat.pow_zero, Nat.mul_one]
      simp only [infinityBits, leadingBit] at *
      omega
  have hbits : ofUnits negative (k * 2 ^ s) 1 =
      assemble negative (t * leadingBit + k * 2 ^ (s - t)) := by
    rw [ofUnits, magnitudeBits, hgrid]
    exact congrArg (assemble negative) (Nat.min_eq_left hplace.le)
  obtain ⟨heq, hsign⟩ := place_assemble negative (hplace.trans (by decide))
  rw [hbits, isFinite_iff_place, magnitude_eq_magnitudeAt, heq, magnitudeAt_eq hlow hhigh,
    Nat.mul_assoc, ← Nat.pow_add, Nat.sub_add_cancel ht]
  exact ⟨hplace, hsign, rfl⟩

theorem scale_lt_of_isFinite (h : x.isFinite = true) : x.scale < 2046 := by
  have hlt := x.exponentField_lt
  have hne : x.exponentField ≠ 2047 := by simpa [isFinite] using h
  simp only [scale]
  omega

/-! ## Integers held -/

/-- The exact value of a double is an integer. -/
structure Holds (x : Double) (a : Int) : Prop where
  isFinite : x.isFinite = true
  units : x.units = a * unitsPerOne

theorem natAbs_units (x : Double) : x.units.natAbs = x.magnitude := by
  rw [units]
  split <;> omega

theorem units_of_isZero (h : x.isZero = true) : x.units = 0 := by
  rw [← Int.natAbs_eq_zero, natAbs_units]
  simpa [isZero] using h

theorem Holds.magnitude (hx : x.Holds a) : x.magnitude = a.natAbs * unitsPerOne := by
  rw [← natAbs_units, hx.units, Int.natAbs_mul, Int.natAbs_natCast]

/-- The sign bit is that of the integer, if this is not zero. -/
theorem Holds.eq_natAbs (hx : x.Holds a) :
    a = if x.isNegative then -(a.natAbs : Int) else a.natAbs := by
  have hunit : (unitsPerOne : Int) ≠ 0 := Int.natCast_ne_zero.mpr unitsPerOne_pos.ne'
  refine Int.eq_of_mul_eq_mul_right hunit ?_
  rw [← hx.units, Double.units, hx.magnitude]
  split <;> push_cast <;> ring

theorem Holds.truncate (hx : x.Holds a) : x.truncate = a := by
  have hone : (unitsPerOne : Int) ≠ 0 := Int.natCast_ne_zero.mpr unitsPerOne_pos.ne'
  rw [Double.truncate, hx.units, Int.mul_tdiv_cancel _ hone]

theorem Holds.lessThan (hx : x.Holds a) (hy : y.Holds b) : x.lessThan y = decide (a < b) := by
  have hunit : (0 : Int) < unitsPerOne := Int.natCast_pos.mpr unitsPerOne_pos
  rw [Double.lessThan, isNaN_of_isFinite hx.isFinite, isNaN_of_isFinite hy.isFinite, hx.units,
    hy.units]
  simp only [Bool.not_false, Bool.true_and, Int.mul_lt_mul_right hunit]

theorem Holds.equals (hx : x.Holds a) (hy : y.Holds b) : x.equals y = decide (a = b) := by
  have hunit : (unitsPerOne : Int) ≠ 0 := Int.natCast_ne_zero.mpr unitsPerOne_pos.ne'
  rw [Double.equals, isNaN_of_isFinite hx.isFinite, isNaN_of_isFinite hy.isFinite, hx.units,
    hy.units]
  simp only [Bool.not_false, Bool.true_and, Int.mul_eq_mul_right_iff hunit]

theorem Holds.isZero (hx : x.Holds a) : x.isZero = decide (a = 0) := by
  rw [Double.isZero, hx.magnitude]
  simp [unitsPerOne_pos.ne']

/-- A double is put together from an integer and a sign that agree. -/
theorem holds_of_magnitude {n : Nat} (hfinite : x.isFinite = true)
    (hmagnitude : x.magnitude = n * unitsPerOne) :
    x.Holds (if x.isNegative then -(n : Int) else n) := by
  refine ⟨hfinite, ?_⟩
  rw [units, hmagnitude]
  split <;> push_cast <;> ring

/-- An integer below `2 ^ 53` is held by the double nearest to it. -/
theorem holds_nearest (negative : Bool) {n : Nat} (hn : n < 2 ^ 53) :
    (nearest negative n 1).Holds (if negative then -(n : Int) else n) := by
  obtain ⟨hfinite, hsign, hmagnitude⟩ := nearest_exact negative hn
  have hholds := holds_of_magnitude hfinite hmagnitude
  rwa [hsign] at hholds

theorem holds_ofNat {n : Nat} (hn : n < 2 ^ 53) : (ofNat n).Holds n := holds_nearest false hn

theorem holds_ofInt {n : ℤ} (hn : n.natAbs < 2 ^ 53) : (ofInt n).Holds n := by
  have hholds := holds_nearest (n < 0) hn
  have hsign : (if decide (n < 0) = true then -(n.natAbs : ℤ) else n.natAbs) = n := by
    simp only [decide_eq_true_eq]
    split <;> omega
  rwa [hsign] at hholds

theorem isNegative_ofInt {n : ℤ} (hn : n.natAbs < 2 ^ 53) :
    (ofInt n).isNegative = decide (n < 0) := (nearest_exact (n < 0) hn).2.1

theorem holds_zero : zero.Holds 0 := by
  refine ⟨by decide, ?_⟩
  rw [Int.zero_mul]
  decide

/-! ## Without the fraction -/

theorem natAbs_truncate (x : Double) : x.truncate.natAbs = x.magnitude / unitsPerOne := by
  rw [Double.truncate, Int.natAbs_tdiv, natAbs_units, Int.natAbs_natCast]
  rfl

/-- Cutting off the fraction brings a number closer to zero. -/
theorem truncate_eq_div (x : Double) :
    x.truncate = if x.isNegative then -((x.magnitude / unitsPerOne : Nat) : Int)
      else (x.magnitude / unitsPerOne : Nat) := by
  rw [Double.truncate, units]
  split
  · rw [Int.neg_tdiv]
    rfl
  · rfl

/-- **The integral part** of a double is held by a double, which has the same sign. -/
theorem trunc_exact (h : x.isFinite = true) :
    x.trunc.isNegative = x.isNegative ∧ x.trunc.Holds x.truncate := by
  have hparts : x.trunc.isFinite = true ∧ x.trunc.isNegative = x.isNegative ∧
      x.trunc.magnitude = x.magnitude / unitsPerOne * unitsPerOne := by
    rw [trunc, if_pos h, natAbs_truncate, nearest]
    by_cases hexp : unitExponent ≤ x.exponentField
    · -- the last digit of the significand is not below the unit: there is no fraction
      rw [Nat.div_mul_cancel (unitsPerOne_dvd_magnitude (isIntegral_of_le h hexp)), magnitude_eq]
      exact ofUnits_exact _ x.significand_lt (scale_lt_of_isFinite h)
    · obtain ⟨e, he⟩ : ∃ e, 1074 = e := ⟨_, rfl⟩
      have hsmall : x.magnitude / unitsPerOne < leadingBit :=
        Nat.div_lt_of_lt_mul (by
          rw [Nat.mul_comm]
          exact magnitude_lt_of_lt (Nat.lt_of_not_le hexp))
      rw [unitsPerOne_eq he] at hsmall ⊢
      exact ofUnits_exact _ (by omega) (by omega)
  obtain ⟨hfinite, hsign, hmagnitude⟩ := hparts
  have hholds := holds_of_magnitude hfinite hmagnitude
  rw [hsign, ← truncate_eq_div] at hholds
  exact ⟨hsign, hholds⟩

theorem holds_floor (h : x.isFinite = true) : x.floor.Holds (x.units / unitsPerOne) :=
  ⟨isFinite_of_isIntegral (units_floor h).1, (units_floor h).2⟩

/-! ## Sums and remainders -/

/-- A sum of up to 53 binary digits is not rounded. -/
theorem add_exact (hx : x.isFinite = true) (hy : y.isFinite = true) {k s : Nat}
    (hk : k < 2 * leadingBit) (hs : s < 2046) (hsum : (x.units + y.units).natAbs = k * 2 ^ s) :
    (x.add y).isFinite = true ∧ (x.add y).units = x.units + y.units := by
  rw [add, isNaN_of_isFinite hx, isNaN_of_isFinite hy, isInfinite_of_isFinite hx,
    isInfinite_of_isFinite hy]
  simp only [Bool.or_self, Bool.false_eq_true, if_false]
  split
  · next hzero =>
    rw [hzero]
    cases x.isNegative && y.isNegative <;> decide
  · obtain ⟨hfinite, hsign, hmagnitude⟩ := ofUnits_exact (x.units + y.units < 0) hk hs
    rw [hsum]
    refine ⟨hfinite, ?_⟩
    rw [units, hsign, hmagnitude, ← hsum]
    split <;> simp only [decide_eq_true_eq] at * <;> omega

theorem two_mul_leadingBit : 2 * leadingBit = 2 ^ 53 := by decide

theorem Holds.add (hx : x.Holds a) (hy : y.Holds b) (hsum : (a + b).natAbs < 2 ^ 53) :
    (x.add y).Holds (a + b) := by
  obtain ⟨e, he⟩ : ∃ e, 1074 = e := ⟨_, rfl⟩
  have hunits : x.units + y.units = (a + b) * unitsPerOne := by
    rw [hx.units, hy.units, Int.add_mul]
  have hnatAbs : (x.units + y.units).natAbs = (a + b).natAbs * 2 ^ e := by
    rw [hunits, Int.natAbs_mul, Int.natAbs_natCast, unitsPerOne_eq he]
  obtain ⟨hfinite, hadd⟩ := add_exact hx.isFinite hy.isFinite
    (hsum.trans_eq two_mul_leadingBit.symm) (by omega) hnatAbs
  exact ⟨hfinite, hadd.trans hunits⟩

/-- **Remainders** have the sign of what is divided. -/
theorem Holds.remainder (hx : x.Holds a) (hy : y.Holds b) (hb : b ≠ 0)
    (hsmall : b.natAbs < 2 ^ 53) : (x.remainder y).Holds (a.tmod b) := by
  obtain ⟨e, he⟩ : ∃ e, 1074 = e := ⟨_, rfl⟩
  have hpos : 0 < b.natAbs := Int.natAbs_pos.mpr hb
  have hrest : a.natAbs % b.natAbs < 2 * leadingBit := by
    rw [two_mul_leadingBit]
    exact (Nat.mod_lt _ hpos).trans hsmall
  have hremainder : x.remainder y =
      ofUnits x.isNegative (a.natAbs % b.natAbs * 2 ^ e) 1 := by
    rw [Double.remainder, isNaN_of_isFinite hx.isFinite, isNaN_of_isFinite hy.isFinite,
      isInfinite_of_isFinite hx.isFinite, isInfinite_of_isFinite hy.isFinite, hy.isZero,
      decide_eq_false hb, hx.magnitude, hy.magnitude, Nat.mul_mod_mul_right, unitsPerOne_eq he]
    rfl
  obtain ⟨hfinite, hsign, hmagnitude⟩ := ofUnits_exact x.isNegative hrest (show e < 2046 by omega)
  rw [← hremainder] at hfinite hsign hmagnitude
  rw [← unitsPerOne_eq he] at hmagnitude
  have hholds := holds_of_magnitude hfinite hmagnitude
  have htmod : a.tmod b = if x.isNegative then -((a.natAbs % b.natAbs : Nat) : Int)
      else (a.natAbs % b.natAbs : Nat) := by
    have hnat : (a.natAbs : Int).tmod b = (a.natAbs % b.natAbs : Nat) := by
      have hnatAbs := Int.natAbs_tmod a.natAbs b
      have hnonneg := Int.tmod_nonneg b (Int.natCast_nonneg a.natAbs)
      rw [Int.natAbs_natCast] at hnatAbs
      omega
    rw [← hnat]
    nth_rewrite 1 [hx.eq_natAbs]
    split
    · exact Int.neg_tmod _ _
    · rfl
  rw [htmod, ← hsign]
  exact hholds

/-- Another sign changes neither the magnitude nor whether a double is finite. -/
theorem assemble_place_exact (negative : Bool) (x : Double) :
    (assemble negative x.place).isFinite = x.isFinite ∧
      (assemble negative x.place).isNegative = negative ∧
      (assemble negative x.place).magnitude = x.magnitude := by
  obtain ⟨hplace, hsign⟩ := place_assemble negative x.place_lt
  refine ⟨?_, hsign, by rw [magnitude_eq_magnitudeAt, magnitude_eq_magnitudeAt, hplace]⟩
  rw [Bool.eq_iff_iff, isFinite_iff_place, isFinite_iff_place, hplace]

theorem units_negate (x : Double) :
    x.negate.isFinite = x.isFinite ∧ x.negate.units = -x.units := by
  obtain ⟨hfinite, hsign, hmagnitude⟩ := x.assemble_place_exact (!x.isNegative)
  refine ⟨hfinite, ?_⟩
  change (assemble (!x.isNegative) x.place).units = -x.units
  rw [units, units, hsign, hmagnitude]
  cases x.isNegative <;> simp

theorem Holds.abs (hx : x.Holds a) : x.abs.Holds a.natAbs := by
  obtain ⟨hfinite, hsign, hmagnitude⟩ := x.assemble_place_exact false
  have hholds := holds_of_magnitude (hfinite.trans hx.isFinite) (hmagnitude.trans hx.magnitude)
  rwa [hsign] at hholds

/-- **Remainders that are not negative.** Where a negative remainder is moved up the sum has
no more binary digits than the divisor. -/
theorem Holds.euclideanRemainder (hx : x.Holds a) (hy : y.Holds b) (hb : 0 < b)
    (hsmall : b < 2 ^ 53) : (x.euclideanRemainder y).Holds (a % b) := by
  have hremainder := hx.remainder hy hb.ne' (by omega)
  have hlow : -b < a.tmod b := Int.lt_tmod_of_pos a hb
  -- the two remainders differ by the divisor if at all
  have hmod := Int.emod_eq_tmod (a := a) (b := b)
  have hnonneg := Int.emod_nonneg a hb.ne'
  have hlt := Int.emod_lt_of_pos a hb
  rw [Double.euclideanRemainder, hremainder.lessThan holds_zero]
  simp only [decide_eq_true_eq]
  split
  · next hneg =>
    have habs := hy.abs
    rw [Int.natAbs_of_nonneg hb.le] at habs
    have hsum := hremainder.add habs (by omega)
    have heq : a % b = a.tmod b + b := by
      split at hmod <;> omega
    rw [heq]
    exact hsum
  · next hneg =>
    have heq : a % b = a.tmod b := by
      split at hmod <;> omega
    rw [heq]
    exact hremainder

end Ecma.Double
