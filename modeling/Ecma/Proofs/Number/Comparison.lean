import Mathlib.Algebra.Order.Field.Rat
import Mathlib.Algebra.Order.Ring.Cast
import Mathlib.Order.Compare
import Mathlib.Order.WithBot
import Mathlib.Tactic.Ring
import Ecma.Operation.Comparison
import Ecma.Proofs.Number.Exact

/-!
# Numbers compare by their exact values

The exact value of a double is a rational number or one of two infinities, and it can be
read off the three fields of the bits (`Double.exactValue?`); an integer is its own value. The
comparison of numerics never computes such a value. Two doubles are compared by the
integers that count their units, infinities included; an integer is compared with a double
that was rounded down, and the part cut off is looked at afterwards.

Both come to the order of the exact values. For two doubles that is because `units` is
strictly monotone in the value (`units_lt_iff`). For an integer it rests on two facts:
rounding down loses nothing but the fraction (`units_floor`), and shifting the significand
of an integral double loses nothing at all (`integer_mul_unitsPerOne`).
-/

namespace Ecma

namespace Double

/-! ## Fields -/

theorem exponentField_lt (x : Double) : x.exponentField < 2048 := Nat.mod_lt _ (by decide)

theorem fractionField_lt (x : Double) : x.fractionField < leadingBit := Nat.mod_lt _ (by decide)

theorem significand_lt (x : Double) : x.significand < 2 * leadingBit := by
  have hfraction := x.fractionField_lt
  rw [significand]
  split <;> omega

theorem isFinite_of_not {x : Double} (hnan : x.isNaN = false) (hinf : x.isInfinite = false) :
    x.isFinite = true := by
  by_cases hexp : x.exponentField = 2047
  · by_cases hfrac : x.fractionField = 0 <;> simp [isNaN, isInfinite, hexp, hfrac] at hnan hinf
  · simpa [isFinite] using hexp

theorem isNaN_of_isFinite {x : Double} (h : x.isFinite = true) : x.isNaN = false := by
  have hexp : x.exponentField ≠ 2047 := by simpa [isFinite] using h
  simp [isNaN, hexp]

theorem isInfinite_of_isFinite {x : Double} (h : x.isFinite = true) : x.isInfinite = false := by
  have hexp : x.exponentField ≠ 2047 := by simpa [isFinite] using h
  simp [isInfinite, hexp]

theorem isNaN_of_isInfinite {x : Double} (h : x.isInfinite = true) : x.isNaN = false := by
  simp only [isInfinite, Bool.and_eq_true, decide_eq_true_eq] at h
  simp [isNaN, h.2]

theorem units_of_isNegative {x : Double} (h : x.isNegative = true) :
    x.units = -(x.magnitude : Int) := by
  rw [units, if_pos h]

theorem units_of_not_isNegative {x : Double} (h : x.isNegative = false) :
    x.units = x.magnitude := by
  rw [units, h, if_neg Bool.false_ne_true]

theorem unitsPerOne_pos : 0 < unitsPerOne := by
  obtain ⟨e, he⟩ : ∃ e, 1074 = e := ⟨_, rfl⟩
  rw [unitsPerOne_eq he]
  exact Nat.two_pow_pos e

theorem magnitude_eq (x : Double) : x.magnitude = x.significand * 2 ^ x.scale := rfl

/-- The last place of a significand is a whole number of times the unit. -/
theorem two_pow_scale_of_le {x : Double} (h : unitExponent ≤ x.exponentField) :
    2 ^ x.scale = unitsPerOne * 2 ^ (x.exponentField - unitExponent) := by
  obtain ⟨e, he⟩ : ∃ e, 1074 = e := ⟨_, rfl⟩
  have hscale : x.scale = e + (x.exponentField - unitExponent) := by
    simp only [scale, unitExponent] at h ⊢
    omega
  rw [hscale, Nat.pow_add, unitsPerOne_eq he]

/-- The unit is a whole number of times the last place of a significand. -/
theorem two_pow_scale_of_lt {x : Double} (h : x.exponentField < unitExponent)
    (hzero : x.exponentField ≠ 0) :
    2 ^ x.scale * 2 ^ (unitExponent - x.exponentField) = unitsPerOne := by
  simp only [unitExponent] at h
  have hsum : 1074 = x.scale + (unitExponent - x.exponentField) := by
    simp only [scale, unitExponent]
    omega
  rw [← Nat.pow_add, unitsPerOne_eq hsum]

/-- A double without a normal leading bit is below every normal one. -/
theorem magnitude_lt_of_zero {x : Double} (h : x.exponentField = 0) : x.magnitude < leadingBit := by
  have hfraction := x.fractionField_lt
  rwa [magnitude_eq, significand, scale, h, if_pos rfl, Nat.zero_sub, Nat.pow_zero, Nat.mul_one]

/-! ## Rounding down -/

/-- A double whose last place is the unit or above has no fraction. -/
theorem isIntegral_of_le {x : Double} (hfinite : x.isFinite = true)
    (h : unitExponent ≤ x.exponentField) : x.isIntegral = true := by
  have hmod : x.magnitude % unitsPerOne = 0 := by
    rw [magnitude_eq, two_pow_scale_of_le h, Nat.mul_left_comm, Nat.mul_mod_right]
  rw [isIntegral, hfinite, hmod]
  rfl

/-- A double whose last place is below the unit is below `2 ^ 52`. -/
theorem magnitude_lt_of_lt {x : Double} (h : x.exponentField < unitExponent) :
    x.magnitude < leadingBit * unitsPerOne := by
  by_cases hzero : x.exponentField = 0
  · calc x.magnitude < leadingBit := magnitude_lt_of_zero hzero
      _ ≤ leadingBit * unitsPerOne := Nat.le_mul_of_pos_right _ unitsPerOne_pos
  · have htwo : 2 ≤ 2 ^ (unitExponent - x.exponentField) :=
      Nat.le_self_pow (Nat.sub_ne_zero_of_lt h) 2
    calc x.magnitude < 2 * leadingBit * 2 ^ x.scale :=
          Nat.mul_lt_mul_of_pos_right x.significand_lt (Nat.two_pow_pos _)
      _ = leadingBit * (2 ^ x.scale * 2) := by rw [Nat.mul_comm 2, Nat.mul_assoc, Nat.mul_comm 2]
      _ ≤ leadingBit * (2 ^ x.scale * 2 ^ (unitExponent - x.exponentField)) :=
          Nat.mul_le_mul_left _ (Nat.mul_le_mul_left _ htwo)
      _ = leadingBit * unitsPerOne := by rw [two_pow_scale_of_lt h hzero]

theorem unitsPerOne_dvd_magnitude {x : Double} (h : x.isIntegral = true) :
    unitsPerOne ∣ x.magnitude := by
  simp only [isIntegral, Bool.and_eq_true, decide_eq_true_eq] at h
  exact Nat.dvd_of_mod_eq_zero h.2

theorem isFinite_of_isIntegral {x : Double} (h : x.isIntegral = true) : x.isFinite = true := by
  simp only [isIntegral, Bool.and_eq_true] at h
  exact h.1

theorem units_of_isIntegral {x : Double} (h : x.isIntegral = true) :
    x.units / unitsPerOne * unitsPerOne = x.units := by
  have hdvd : (unitsPerOne : Int) ∣ x.magnitude := Int.natCast_dvd_natCast.mpr
    (unitsPerOne_dvd_magnitude h)
  refine Int.ediv_mul_cancel ?_
  rw [units]
  split
  · exact Int.dvd_neg.mpr hdvd
  · exact hdvd

/-- An integral double is as many units as the integer that it is truncated to. -/
theorem units_eq_truncate {x : Double} (h : x.isIntegral = true) :
    x.units = x.truncate * unitsPerOne := by
  refine (Int.tdiv_mul_cancel ⟨x.units / unitsPerOne, ?_⟩).symm
  rw [Int.mul_comm, units_of_isIntegral h]

theorem units_ofNat {n : Nat} (hn : n < 2 ^ 53) : (ofNat n).units = n * unitsPerOne := by
  rw [units_eq_truncate (isIntegral_ofNat hn), truncate_ofNat hn]

/-- The integer below a double with a fraction: it is at most as far from zero as
`2 ^ 52`, and negative exactly if the double is. -/
theorem ediv_unitsPerOne_bounds {x : Double} (hfinite : x.isFinite = true)
    (h : x.isIntegral = false) :
    (x.units / unitsPerOne).natAbs ≤ leadingBit ∧
      x.units / unitsPerOne = if x.isNegative then -((x.units / unitsPerOne).natAbs : Int)
        else (x.units / unitsPerOne).natAbs := by
  have hsmall : (x.magnitude : Int) < leadingBit * unitsPerOne := by
    refine mod_cast magnitude_lt_of_lt (Nat.lt_of_not_le fun hle => ?_)
    exact Bool.false_ne_true (h.symm.trans (isIntegral_of_le hfinite hle))
  have hpos : 0 < x.magnitude := by
    refine Nat.pos_of_ne_zero fun hzero => ?_
    simp [isIntegral, hfinite, hzero] at h
  have hunit : (0 : Int) < unitsPerOne := Int.natCast_pos.mpr unitsPerOne_pos
  cases hneg : x.isNegative with
  | false =>
    have hunits := units_of_not_isNegative hneg
    have hlow : 0 ≤ x.units / unitsPerOne := Int.ediv_nonneg (by omega) (by omega)
    have hhigh : x.units / unitsPerOne < leadingBit := by
      rw [hunits]
      exact Int.ediv_lt_of_lt_mul hunit hsmall
    rw [if_neg Bool.false_ne_true]
    omega
  | true =>
    -- the fraction is not zero, so a negative double lies above a negative integer
    have hunits := units_of_isNegative hneg
    have hlow : -(leadingBit : Int) ≤ x.units / unitsPerOne := by
      refine Int.le_ediv_of_mul_le hunit ?_
      rw [Int.neg_mul]
      omega
    have hhigh : x.units / unitsPerOne < 0 := Int.ediv_neg_of_neg_of_pos (by omega) hunit
    rw [if_pos rfl]
    omega

/-- **Rounding down** gives an integral double, and what is cut off is less than one. -/
theorem units_floor {x : Double} (h : x.isFinite = true) :
    x.floor.isIntegral = true ∧ x.floor.units = x.units / unitsPerOne * unitsPerOne := by
  cases hint : x.isIntegral with
  | true =>
    have hfloor : x.floor = x := by rw [floor, hint, Bool.not_true, Bool.and_false]; rfl
    rw [hfloor]
    exact ⟨hint, (units_of_isIntegral hint).symm⟩
  | false =>
    have hfloor : x.floor = nearest x.isNegative (x.units / unitsPerOne).natAbs 1 := by
      rw [floor, h, hint]
      rfl
    obtain ⟨hle, hsign⟩ := ediv_unitsPerOne_bounds h hint
    obtain ⟨hfinite, hnegative, hmagnitude⟩ :=
      nearest_exact x.isNegative (Nat.lt_of_le_of_lt hle (by decide))
    rw [hfloor]
    constructor
    · rw [isIntegral, hfinite, hmagnitude, Nat.mul_mod_left]
      rfl
    · rw [units, hnegative, hmagnitude]
      generalize x.units / unitsPerOne = q at hsign
      rw [Int.natCast_mul]
      cases hneg : x.isNegative with
      | false =>
        rw [hneg, if_neg Bool.false_ne_true] at hsign
        rw [if_neg Bool.false_ne_true, ← hsign]
      | true =>
        rw [hneg, if_pos rfl] at hsign
        rw [if_pos rfl, ← Int.neg_mul, ← hsign]

/-! ## The integer that an integral double is -/

/-- **Shifting** the significand of an integral double loses no bits. -/
theorem integer_mul_unitsPerOne {x : Double} (h : x.isIntegral = true) :
    x.integer * unitsPerOne = x.units := by
  have hdvd := unitsPerOne_dvd_magnitude h
  by_cases hzero : x.exponentField = 0
  · -- a subnormal double is integral only if it is zero
    have hsmall : x.magnitude < unitsPerOne := by
      obtain ⟨e, he⟩ : ∃ e, 1074 = e := ⟨_, rfl⟩
      calc x.magnitude < 2 ^ 52 := magnitude_lt_of_zero hzero
        _ ≤ 2 ^ e := Nat.pow_le_pow_right (by decide) (by omega)
        _ = unitsPerOne := (unitsPerOne_eq he).symm
    have hmagnitude : x.magnitude = 0 := Nat.eq_zero_of_dvd_of_lt hdvd hsmall
    rw [integer, if_pos hzero, units, hmagnitude, Int.zero_mul]
    split <;> rfl
  · have hmagnitude : (if unitExponent ≤ x.exponentField then
          x.significand <<< (x.exponentField - unitExponent)
        else x.significand >>> (unitExponent - x.exponentField)) * unitsPerOne = x.magnitude := by
      split
      · next hle =>
        rw [Nat.shiftLeft_eq, magnitude_eq, two_pow_scale_of_le hle, Nat.mul_assoc,
          Nat.mul_comm unitsPerOne]
      · next hlt =>
        have hscale := two_pow_scale_of_lt (Nat.lt_of_not_le hlt) hzero
        -- the bits that are shifted out are zeros
        have hbits : 2 ^ (unitExponent - x.exponentField) ∣ x.significand := by
          rw [magnitude_eq, ← hscale, Nat.mul_comm] at hdvd
          exact Nat.dvd_of_mul_dvd_mul_right (Nat.two_pow_pos _) hdvd
        rw [Nat.shiftRight_eq_div_pow, ← hscale, Nat.mul_comm (2 ^ x.scale), ← Nat.mul_assoc,
          Nat.div_mul_cancel hbits, magnitude_eq]
    rw [integer, if_neg hzero, units, ← hmagnitude]
    dsimp only
    split
    · rw [Int.neg_mul, Int.natCast_mul]
    · rw [Int.natCast_mul]

/-- An integer compares with a finite double as their units do. -/
theorem compareInt_of_isFinite (n : Int) {x : Double} (hfinite : x.isFinite = true) :
    compareInt n x = some (compare (n * unitsPerOne) x.units) := by
  have hnan := isNaN_of_isFinite hfinite
  obtain ⟨hint, hfloor⟩ := units_floor hfinite
  have hinteger := integer_mul_unitsPerOne hint
  have hunit : (0 : Int) < unitsPerOne := Int.natCast_pos.mpr unitsPerOne_pos
  have hq : x.floor.integer = x.units / unitsPerOne :=
    Int.eq_of_mul_eq_mul_right (Int.ne_of_gt hunit) (hinteger.trans hfloor)
  have hlow : x.units / unitsPerOne * unitsPerOne ≤ x.units :=
    Int.ediv_mul_le _ (Int.ne_of_gt hunit)
  have hhigh : x.units < (x.units / unitsPerOne + 1) * unitsPerOne :=
    Int.lt_ediv_add_one_mul_self _ hunit
  rw [compareInt, hnan, isInfinite_of_isFinite hfinite, hq, if_neg Bool.false_ne_true,
    if_neg Bool.false_ne_true]
  rcases lt_trichotomy n (x.units / unitsPerOne) with hlt | heq | hgt
  · have hless : n * unitsPerOne < x.units :=
      lt_of_lt_of_le (Int.mul_lt_mul_of_pos_right hlt hunit) hlow
    rw [compare_lt_iff_lt.mpr hlt, compare_lt_iff_lt.mpr hless]
  · -- the integer parts are the same, and the double is greater if it has a fraction
    rw [compare_eq_iff_eq.mpr heq, heq]
    have hless : x.floor.lessThan x = decide (x.units / unitsPerOne * unitsPerOne < x.units) := by
      rw [lessThan, hfloor, hnan, isNaN_of_isFinite (isFinite_of_isIntegral hint)]
      rfl
    dsimp only
    rw [hless]
    rcases hlow.lt_or_eq with hlt | heq'
    · rw [decide_eq_true hlt, compare_lt_iff_lt.mpr hlt, if_pos rfl]
    · rw [heq']
      simp
  · have hgreater : x.units < n * unitsPerOne :=
      lt_of_lt_of_le hhigh (Int.mul_le_mul_of_nonneg_right hgt hunit.le)
    rw [compare_gt_iff_gt.mpr hgt, compare_gt_iff_gt.mpr hgreater]

/-! ## Exact values -/

/-- The value of a finite double: its significand times a power of two, with its
sign. -/
def value (x : Double) : ℚ :=
  (if x.isNegative then -1 else 1) * x.significand * 2 ^ ((max x.exponentField 1 : ℤ) - 1075)

/-- The exact value of a double, among the rational numbers and the two infinities; `none`
if it is not a number. -/
def exactValue? (x : Double) : Option (WithBot (WithTop ℚ)) :=
  if x.isNaN then none
  else if x.isInfinite then some (if x.isNegative then ⊥ else ⊤)
  else some (x.value : WithTop ℚ)

theorem value_mul_unitsPerOne (x : Double) : x.value * unitsPerOne = x.units := by
  have hpow : (2 : ℚ) ^ ((max x.exponentField 1 : ℤ) - 1075) * unitsPerOne = 2 ^ x.scale := by
    obtain ⟨e, he⟩ : ∃ e, 1074 = e := ⟨_, rfl⟩
    have hsum : (max x.exponentField 1 : ℤ) - 1075 + e = x.scale := by
      simp only [scale]
      omega
    rw [unitsPerOne_eq he, Nat.cast_pow, Nat.cast_ofNat, ← zpow_natCast, ← zpow_natCast,
      ← zpow_add₀ two_ne_zero, hsum]
  rw [value, mul_assoc, hpow, units, magnitude_eq]
  split <;> push_cast <;> ring

theorem exponentField_of_isInfinite {x : Double} (h : x.isInfinite = true) :
    x.exponentField = 2047 ∧ x.significand = leadingBit := by
  simp only [isInfinite, Bool.and_eq_true, decide_eq_true_eq] at h
  obtain ⟨hexp, hfrac⟩ := h
  simp [significand, hexp, hfrac]

/-- The units of an infinity are more than those of every finite double. -/
theorem magnitude_lt_of_isInfinite {x y : Double} (hx : x.isInfinite = true)
    (hy : y.isFinite = true) : y.magnitude < x.magnitude := by
  obtain ⟨hexp, hsignificand⟩ := exponentField_of_isInfinite hx
  have hscale : y.scale + 1 ≤ x.scale := by
    have hne : y.exponentField ≠ 2047 := by simpa [isFinite] using hy
    have hlt := y.exponentField_lt
    simp only [scale, hexp]
    omega
  calc y.magnitude < 2 * leadingBit * 2 ^ y.scale :=
        Nat.mul_lt_mul_of_pos_right y.significand_lt (Nat.two_pow_pos _)
    _ = leadingBit * 2 ^ (y.scale + 1) := by rw [Nat.pow_succ]; ring
    _ ≤ leadingBit * 2 ^ x.scale := Nat.mul_le_mul_left _ (Nat.pow_le_pow_right (by decide) hscale)
    _ = x.magnitude := by rw [magnitude_eq, hsignificand]

theorem magnitude_of_isInfinite {x y : Double} (hx : x.isInfinite = true)
    (hy : y.isInfinite = true) : x.magnitude = y.magnitude := by
  obtain ⟨hexp, hsignificand⟩ := exponentField_of_isInfinite hx
  obtain ⟨hexp', hsignificand'⟩ := exponentField_of_isInfinite hy
  rw [magnitude_eq, magnitude_eq, scale, scale, hexp, hexp', hsignificand, hsignificand']

/-- A double that is a number is minus infinity, infinity or finite. -/
theorem exactValue?_cases {x : Double} {a : WithBot (WithTop ℚ)} (h : x.exactValue? = some a) :
    x.isInfinite = true ∧ x.isNegative = true ∧ a = ⊥ ∨
      x.isInfinite = true ∧ x.isNegative = false ∧ a = (⊤ : WithTop ℚ) ∨
      x.isFinite = true ∧ a = (x.value : WithTop ℚ) := by
  rw [exactValue?] at h
  cases hnan : x.isNaN with
  | true => simp [hnan] at h
  | false =>
    cases hinf : x.isInfinite with
    | false =>
      rw [hnan, hinf, if_neg Bool.false_ne_true, if_neg Bool.false_ne_true] at h
      exact .inr (.inr ⟨isFinite_of_not hnan hinf, (Option.some.inj h).symm⟩)
    | true =>
      rw [hnan, hinf, if_neg Bool.false_ne_true, if_pos rfl] at h
      cases hneg : x.isNegative with
      | true =>
        rw [hneg, if_pos rfl] at h
        exact .inl ⟨rfl, rfl, (Option.some.inj h).symm⟩
      | false =>
        rw [hneg, if_neg Bool.false_ne_true] at h
        exact .inr (.inl ⟨rfl, rfl, (Option.some.inj h).symm⟩)

theorem units_bounds {x y : Double} (hx : x.isInfinite = true) (hy : y.isFinite = true) :
    -(x.magnitude : Int) < y.units ∧ y.units < x.magnitude := by
  have hlt := magnitude_lt_of_isInfinite hx hy
  rw [units]
  split <;> omega

theorem value_eq (x : Double) : x.value = x.units / unitsPerOne :=
  eq_div_of_mul_eq (Nat.cast_ne_zero.mpr unitsPerOne_pos.ne') x.value_mul_unitsPerOne

theorem intCast_eq (n : Int) : (n : ℚ) = (n * unitsPerOne : Int) / unitsPerOne := by
  rw [Int.cast_mul, Int.cast_natCast,
    mul_div_cancel_right₀ _ (Nat.cast_ne_zero.mpr unitsPerOne_pos.ne')]

/-- Rational numbers with the same denominator, one unit, are ordered by their units. -/
theorem div_unitsPerOne_lt_iff {i j : Int} : (i / unitsPerOne : ℚ) < j / unitsPerOne ↔ i < j := by
  rw [div_lt_div_iff_of_pos_right (Nat.cast_pos.mpr unitsPerOne_pos), Int.cast_lt]

/-- **Units** are ordered as the exact values are. -/
theorem units_lt_iff {x y : Double} {a b : WithBot (WithTop ℚ)} (hx : x.exactValue? = some a)
    (hy : y.exactValue? = some b) : x.units < y.units ↔ a < b := by
  rcases exactValue?_cases hx with ⟨hinf, hneg, rfl⟩ | ⟨hinf, hneg, rfl⟩ | ⟨hfin, rfl⟩ <;>
    rcases exactValue?_cases hy with ⟨hinf', hneg', rfl⟩ | ⟨hinf', hneg', rfl⟩ | ⟨hfin', rfl⟩
  · rw [units_of_isNegative hneg, units_of_isNegative hneg', magnitude_of_isInfinite hinf hinf']
    exact iff_of_false (lt_irrefl _) (lt_irrefl _)
  · rw [units_of_isNegative hneg, units_of_not_isNegative hneg']
    have hpos := magnitude_lt_of_isInfinite hinf (y := zero) (by decide)
    exact iff_of_true (by omega) (WithBot.bot_lt_coe _)
  · rw [units_of_isNegative hneg]
    exact iff_of_true (units_bounds hinf hfin').1 (WithBot.bot_lt_coe _)
  · rw [units_of_not_isNegative hneg, units_of_isNegative hneg']
    exact iff_of_false (by omega) not_lt_bot
  · rw [units_of_not_isNegative hneg, units_of_not_isNegative hneg',
      magnitude_of_isInfinite hinf hinf']
    exact iff_of_false (lt_irrefl _) (lt_irrefl _)
  · rw [units_of_not_isNegative hneg]
    exact iff_of_false (units_bounds hinf hfin').2.not_gt (WithBot.coe_lt_coe.not.mpr not_top_lt)
  · rw [units_of_isNegative hneg']
    exact iff_of_false (units_bounds hinf' hfin).1.not_gt not_lt_bot
  · rw [units_of_not_isNegative hneg']
    exact iff_of_true (units_bounds hinf' hfin).2 (WithBot.coe_lt_coe.mpr (WithTop.coe_lt_top _))
  · rw [WithBot.coe_lt_coe, WithTop.coe_lt_coe, value_eq, value_eq, div_unitsPerOne_lt_iff]

/-- **Integers.** An integer and a double that is a number compare as their exact values
do. -/
theorem compareInt_compares (n : Int) {x : Double} {a : WithBot (WithTop ℚ)}
    (hx : x.exactValue? = some a) :
    ∃ o, compareInt n x = some o ∧ o.Compares (((n : ℚ) : WithTop ℚ) : WithBot (WithTop ℚ)) a := by
  rcases exactValue?_cases hx with ⟨hinf, hneg, rfl⟩ | ⟨hinf, hneg, rfl⟩ | ⟨hfin, rfl⟩
  · refine ⟨.gt, ?_, WithBot.bot_lt_coe _⟩
    simp [compareInt, isNaN_of_isInfinite hinf, hinf, hneg]
  · refine ⟨.lt, ?_, WithBot.coe_lt_coe.mpr (WithTop.coe_lt_top _)⟩
    simp [compareInt, isNaN_of_isInfinite hinf, hinf, hneg]
  · refine ⟨_, compareInt_of_isFinite n hfin, ?_⟩
    have hlt : (n : ℚ) < x.value ↔ n * unitsPerOne < x.units := by
      rw [intCast_eq, value_eq, div_unitsPerOne_lt_iff]
    have hgt : x.value < n ↔ x.units < n * unitsPerOne := by
      rw [intCast_eq, value_eq, div_unitsPerOne_lt_iff]
    rcases lt_trichotomy (n * unitsPerOne : Int) x.units with hless | heq | hgreater
    · rw [compare_lt_iff_lt.mpr hless]
      exact WithBot.coe_lt_coe.mpr (WithTop.coe_lt_coe.mpr (hlt.mpr hless))
    · rw [compare_eq_iff_eq.mpr heq]
      have hvalue : (n : ℚ) = x.value := by rw [intCast_eq, heq, value_eq]
      exact congrArg (fun q : ℚ => ((q : WithTop ℚ) : WithBot (WithTop ℚ))) hvalue
    · rw [compare_gt_iff_gt.mpr hgreater]
      exact WithBot.coe_lt_coe.mpr (WithTop.coe_lt_coe.mpr (hgt.mpr hgreater))

theorem exactValue?_eq_none_iff {x : Double} : x.exactValue? = none ↔ x.isNaN = true := by
  rw [exactValue?]
  cases x.isNaN with
  | true => simp
  | false => cases x.isInfinite <;> simp

theorem isNaN_of_exactValue? {x : Double} {a : WithBot (WithTop ℚ)} (h : x.exactValue? = some a) :
    x.isNaN = false := by
  refine Bool.eq_false_iff.mpr fun hnan => ?_
  rw [exactValue?_eq_none_iff.mpr hnan] at h
  cases h

/-- Two doubles have the same units if they have the same exact value. -/
theorem units_eq_iff {x y : Double} {a b : WithBot (WithTop ℚ)} (hx : x.exactValue? = some a)
    (hy : y.exactValue? = some b) : x.units = y.units ↔ a = b := by
  rw [le_antisymm_iff, le_antisymm_iff, ← not_lt, ← not_lt, ← not_lt, ← not_lt,
    units_lt_iff hx hy, units_lt_iff hy hx]

end Double

/-! ## Numerics -/

namespace Numeric

/-- The exact value of a numeric; `none` if it is not a number. -/
def exactValue? : Numeric → Option (WithBot (WithTop ℚ))
  | number x => x.exactValue?
  | bigint n => some ((n : ℚ) : WithTop ℚ)

/-- Numerics are less than each other as their exact values are. -/
theorem lessThan_of_exactValue? {x y : Numeric} {a b : WithBot (WithTop ℚ)}
    (hx : x.exactValue? = some a) (hy : y.exactValue? = some b) :
    x.lessThan y = some (decide (a < b)) := by
  rcases x with x | n <;> rcases y with y | m
  · rw [lessThan, Double.isNaN_of_exactValue? hx, Double.isNaN_of_exactValue? hy, Double.lessThan,
      Double.isNaN_of_exactValue? hx, Double.isNaN_of_exactValue? hy]
    simp [Double.units_lt_iff hx hy]
  · obtain ⟨o, ho, hcompares⟩ := Double.compareInt_compares m hx
    obtain rfl := Option.some.inj hy
    rw [lessThan, ho, Option.map_some]
    simp [hcompares.eq_gt]
  · obtain ⟨o, ho, hcompares⟩ := Double.compareInt_compares n hy
    obtain rfl := Option.some.inj hx
    rw [lessThan, ho, Option.map_some]
    simp [hcompares.eq_lt]
  · obtain rfl := Option.some.inj hx
    obtain rfl := Option.some.inj hy
    simp [lessThan, WithBot.coe_lt_coe, WithTop.coe_lt_coe, Int.cast_lt]

/-- Numerics are loosely equal as their exact values are. -/
theorem looselyEqual_of_exactValue? {x y : Numeric} {a b : WithBot (WithTop ℚ)}
    (hx : x.exactValue? = some a) (hy : y.exactValue? = some b) :
    x.toValue.looselyEqual y.toValue = decide (a = b) := by
  rcases x with x | n <;> rcases y with y | m
  · change x.equals y = decide (a = b)
    rw [Double.equals, Double.isNaN_of_exactValue? hx, Double.isNaN_of_exactValue? hy]
    simp [Double.units_eq_iff hx hy]
  · obtain ⟨o, ho, hcompares⟩ := Double.compareInt_compares m hx
    obtain rfl := Option.some.inj hy
    change decide (Double.compareInt m x = some .eq) = _
    simp [ho, hcompares.eq_eq, eq_comm]
  · obtain ⟨o, ho, hcompares⟩ := Double.compareInt_compares n hy
    obtain rfl := Option.some.inj hx
    change decide (Double.compareInt n y = some .eq) = _
    simp [ho, hcompares.eq_eq]
  · obtain rfl := Option.some.inj hx
    obtain rfl := Option.some.inj hy
    change decide (n = m) = _
    simp

/-- What is not a number compares with nothing and equals nothing. -/
theorem not_comparable {x y : Numeric} (h : x.exactValue? = none ∨ y.exactValue? = none) :
    x.lessThan y = none ∧ x.toValue.looselyEqual y.toValue = false := by
  rcases x with x | n <;> rcases y with y | m <;>
    simp only [exactValue?, Double.exactValue?_eq_none_iff, reduceCtorEq, or_false, false_or] at h
  · change (if x.isNaN || y.isNaN then none else _) = none ∧ x.equals y = false
    rcases h with h | h <;> simp [Double.equals, h]
  · have hnone : Double.compareInt m x = none := by simp [Double.compareInt, h]
    change (Double.compareInt m x).map _ = none ∧ decide (Double.compareInt m x = some .eq) = false
    simp [hnone]
  · have hnone : Double.compareInt n y = none := by simp [Double.compareInt, h]
    change (Double.compareInt n y).map _ = none ∧ decide (Double.compareInt n y = some .eq) = false
    simp [hnone]

end Numeric

namespace Program

variable {σ : Type}

theorem compare_toValue (x y : Numeric) (leftFirst : Bool) :
    (compare x.toValue y.toValue leftFirst : Program σ (Option Bool)) = pure (x.lessThan y) := by
  cases x <;> cases y <;> cases leftFirst <;> rfl

theorem looselyEqual_toValue (x y : Numeric) :
    (looselyEqual x.toValue y.toValue : Program σ Bool) =
      pure (x.toValue.looselyEqual y.toValue) := by
  cases x <;> cases y <;> rfl

theorem lessThan_toValue (x y : Numeric) :
    (lessThan x.toValue y.toValue : Program σ Bool) = pure (decide (x.lessThan y = some true)) := by
  rw [lessThan, compare_toValue]
  rfl

theorem greaterThan_toValue (x y : Numeric) :
    (greaterThan x.toValue y.toValue : Program σ Bool) =
      pure (decide (y.lessThan x = some true)) := by
  rw [greaterThan, compare_toValue]
  rfl

/-- A numeric is less than another exactly if both have values and these are so
ordered. -/
theorem lessThan_eq_true_iff (x y : Numeric) :
    (lessThan x.toValue y.toValue : Program σ Bool) = pure true ↔
      ∃ a b, x.exactValue? = some a ∧ y.exactValue? = some b ∧ a < b := by
  rw [lessThan_toValue]
  constructor
  · intro h
    have hless : x.lessThan y = some true := of_decide_eq_true (Program.done.inj h)
    rcases hx : x.exactValue? with _ | a
    · rw [(Numeric.not_comparable (.inl hx)).1] at hless
      cases hless
    · rcases hy : y.exactValue? with _ | b
      · rw [(Numeric.not_comparable (.inr hy)).1] at hless
        cases hless
      · rw [Numeric.lessThan_of_exactValue? hx hy] at hless
        exact ⟨a, b, rfl, rfl, of_decide_eq_true (Option.some.inj hless)⟩
  · rintro ⟨a, b, hx, hy, hlt⟩
    rw [Numeric.lessThan_of_exactValue? hx hy, decide_eq_true hlt]
    rfl

/-- **Comparison of numerics is exact.** Order and loose equality of two numerics, each a
double or an integer of any size, are those of their exact values, whichever operand comes
first; what is not a number is in no order with anything and equals nothing. So of two that
are numbers one is less, or they are equal, or one is greater, and never two of these; and
a chain of inequalities may pass from doubles to integers and back. -/
theorem numeric_comparison_exact :
    (∀ (x y : Numeric) (leftFirst : Bool),
      (compare x.toValue y.toValue leftFirst : Program σ (Option Bool)) = pure (do
        let a ← x.exactValue?
        let b ← y.exactValue?
        return decide (a < b))) ∧
    (∀ x y : Numeric, (looselyEqual x.toValue y.toValue : Program σ Bool) =
      pure (x.exactValue?.isSome && decide (x.exactValue? = y.exactValue?))) ∧
    (∀ x y : Numeric, x.exactValue?.isSome → y.exactValue?.isSome → ∃ less equal greater : Bool,
      (lessThan x.toValue y.toValue : Program σ Bool) = pure less ∧
        (looselyEqual x.toValue y.toValue : Program σ Bool) = pure equal ∧
        (greaterThan x.toValue y.toValue : Program σ Bool) = pure greater ∧
        [less, equal, greater].count true = 1) ∧
    (∀ x y z : Numeric, (lessThan x.toValue y.toValue : Program σ Bool) = pure true →
      (lessThan y.toValue z.toValue : Program σ Bool) = pure true →
      (lessThan x.toValue z.toValue : Program σ Bool) = pure true) := by
  refine ⟨?_, ?_, ?_, ?_⟩
  · intro x y leftFirst
    rw [compare_toValue]
    rcases hx : x.exactValue? with _ | a
    · rw [(Numeric.not_comparable (.inl hx)).1]
      rfl
    · rcases hy : y.exactValue? with _ | b
      · rw [(Numeric.not_comparable (.inr hy)).1]
        rfl
      · rw [Numeric.lessThan_of_exactValue? hx hy]
        rfl
  · intro x y
    rw [looselyEqual_toValue]
    rcases hx : x.exactValue? with _ | a
    · rw [(Numeric.not_comparable (.inl hx)).2]
      rfl
    · rcases hy : y.exactValue? with _ | b
      · rw [(Numeric.not_comparable (.inr hy)).2]
        rfl
      · rw [Numeric.looselyEqual_of_exactValue? hx hy]
        simp
  · intro x y hx hy
    obtain ⟨a, hx⟩ := Option.isSome_iff_exists.mp hx
    obtain ⟨b, hy⟩ := Option.isSome_iff_exists.mp hy
    refine ⟨_, _, _, lessThan_toValue x y, looselyEqual_toValue x y, greaterThan_toValue x y, ?_⟩
    rw [Numeric.lessThan_of_exactValue? hx hy, Numeric.lessThan_of_exactValue? hy hx,
      Numeric.looselyEqual_of_exactValue? hx hy]
    rcases lt_trichotomy a b with hlt | rfl | hgt
    · simp [hlt, hlt.not_gt, hlt.ne]
    · simp
    · simp [hgt, hgt.not_gt, hgt.ne']
  · intro x y z hxy hyz
    rw [lessThan_eq_true_iff] at hxy hyz ⊢
    obtain ⟨a, b, ha, hb, hab⟩ := hxy
    obtain ⟨b', c, hb', hc, hbc⟩ := hyz
    obtain rfl := Option.some.inj (hb.symm.trans hb')
    exact ⟨a, c, ha, hc, hab.trans hbc⟩

/-- The greatest negative double lies between two integers, and the first integer that no
double holds between two doubles. -/
theorem numeric_comparison_exact_between :
    (lessThan (Numeric.bigint (-1)).toValue (Numeric.bigint 0).toValue : Program Unit Bool) =
        pure true ∧
      (lessThan (Numeric.number ⟨0x4340000000000000⟩).toValue
        (Numeric.number ⟨0x4340000000000001⟩).toValue : Program Unit Bool) = pure true ∧
      ∃ less equal greater : Bool,
        (lessThan (Numeric.bigint 9007199254740993).toValue
            (Numeric.number ⟨0x4340000000000000⟩).toValue : Program Unit Bool) = pure less ∧
          (looselyEqual (Numeric.bigint 9007199254740993).toValue
            (Numeric.number ⟨0x4340000000000000⟩).toValue : Program Unit Bool) = pure equal ∧
          (greaterThan (Numeric.bigint 9007199254740993).toValue
            (Numeric.number ⟨0x4340000000000000⟩).toValue : Program Unit Bool) = pure greater ∧
          [less, equal, greater].count true = 1 := by
  have hless : ∀ {x y : Numeric}, x.lessThan y = some true →
      (lessThan x.toValue y.toValue : Program Unit Bool) = pure true := by
    intro x y h
    rw [lessThan_toValue, h]
    rfl
  obtain ⟨-, -, hone, htrans⟩ := numeric_comparison_exact (σ := Unit)
  refine ⟨htrans _ (.number ⟨0x8000000000000001⟩) _ (hless ?_) (hless ?_),
    htrans _ (.bigint 9007199254740993) _ (hless ?_) (hless ?_), hone _ _ ?_ ?_⟩
  all_goals decide +kernel

end Program

end Ecma
