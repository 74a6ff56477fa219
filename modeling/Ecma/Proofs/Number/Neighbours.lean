import Mathlib.Algebra.Order.Field.Basic
import Mathlib.Order.Monotone.Basic
import Mathlib.Tactic.Linarith
import Mathlib.Tactic.Positivity
import Ecma.Proofs.Number.Comparison

/-!
# Neighbouring doubles and the nearest one

The doubles of one sign are in a row: without the sign bit their bits are the numbers
from zero on, and the magnitude grows from each `place` to the next by the power of two
that the significand is scaled with (`magnitudeAt_succ`).

`IsNearest` says what rounding to a double means, without saying how it is done: no
other finite double is closer, of two that are equally close the one with the even
significand is taken, and from half way beyond the greatest finite double on it is
infinity. To see that a double is the nearest one to a number it is enough to look at its
two neighbours (`Settles`): the number lies between the points half way to them, and on
such a point only if the place is even. Conversely a number has only one nearest double
(`IsNearest.unique`), because between two doubles with even places there is one with an
odd place.
-/

namespace Ecma.Double

/-! ## Places -/

/-- The place of a double among those of its sign: its bits without the sign bit. -/
def place (x : Double) : Nat := x.bits.toNat % signBit

/-- The power of two that the significand at a place is multiplied with. -/
def scaleAt (l : Nat) : Nat := l / leadingBit - 1

/-- The magnitude of the double at a place. -/
def magnitudeAt (l : Nat) : Nat := (l - scaleAt l * leadingBit) * 2 ^ scaleAt l

theorem place_lt (x : Double) : x.place < signBit := Nat.mod_lt _ (by decide)

theorem exponentField_eq (x : Double) : x.exponentField = x.place / leadingBit := by
  have hbits := x.bits.toNat_lt
  simp only [exponentField, place, leadingBit, signBit]
  omega

theorem fractionField_eq (x : Double) : x.fractionField = x.place % leadingBit := by
  simp only [fractionField, place, leadingBit, signBit]
  omega

theorem scale_eq_scaleAt (x : Double) : x.scale = scaleAt x.place := by
  rw [scale, exponentField_eq, scaleAt]

theorem significand_eq (x : Double) :
    x.significand = x.place - scaleAt x.place * leadingBit := by
  rw [significand, exponentField_eq, fractionField_eq, scaleAt]
  split <;> simp only [leadingBit] at * <;> omega

theorem magnitude_eq_magnitudeAt (x : Double) : x.magnitude = magnitudeAt x.place := by
  rw [magnitude_eq, significand_eq, scale_eq_scaleAt, magnitudeAt]

/-- A significand is even exactly if the place is. -/
theorem significand_mod_two (x : Double) : x.significand % 2 = x.place % 2 := by
  rw [significand_eq, scaleAt]
  simp only [leadingBit]
  omega

theorem isNaN_iff_place (x : Double) : x.isNaN = true ↔ infinityBits < x.place := by
  have hplace := x.place_lt
  simp only [isNaN, exponentField_eq, fractionField_eq, Bool.and_eq_true, decide_eq_true_eq,
    bne_iff_ne, infinityBits, leadingBit, signBit] at *
  omega

theorem isInfinite_iff_place (x : Double) : x.isInfinite = true ↔ x.place = infinityBits := by
  have hplace := x.place_lt
  simp only [isInfinite, exponentField_eq, fractionField_eq, Bool.and_eq_true, decide_eq_true_eq,
    infinityBits, leadingBit, signBit] at *
  omega

theorem isFinite_iff_place (x : Double) : x.isFinite = true ↔ x.place < infinityBits := by
  have hplace := x.place_lt
  simp only [isFinite, exponentField_eq, bne_iff_ne, infinityBits, leadingBit, signBit] at *
  omega

/-- A double is put together from its sign and its place. -/
theorem assemble_place (x : Double) : assemble x.isNegative x.place = x := by
  have hbits := x.bits.toNat_lt
  refine congrArg Double.mk (UInt64.toNat_inj.mp ?_)
  rw [UInt64.toNat_ofNat', isNegative, place]
  by_cases hneg : signBit ≤ x.bits.toNat
  · rw [decide_eq_true hneg, if_pos rfl]
    simp only [signBit] at *
    omega
  · rw [decide_eq_false hneg, if_neg Bool.false_ne_true]
    simp only [signBit] at *
    omega

/-- The place and the sign that a double is put together from. -/
theorem place_assemble (negative : Bool) {l : Nat} (h : l < signBit) :
    (assemble negative l).place = l ∧ (assemble negative l).isNegative = negative := by
  have hbits : (assemble negative l).bits.toNat = (if negative then signBit else 0) + l := by
    simp only [signBit] at h
    simp only [assemble, UInt64.toNat_ofNat', signBit]
    split <;> omega
  simp only [place, isNegative, hbits]
  simp only [signBit] at *
  cases negative <;> simp <;> omega

/-- Doubles with the same sign and the same place are the same. -/
theorem ext_place {x y : Double} (hsign : x.isNegative = y.isNegative)
    (hplace : x.place = y.place) : x = y := by
  rw [← x.assemble_place, ← y.assemble_place, hsign, hplace]

/-! ## Steps between neighbours -/

theorem magnitudeAt_zero : magnitudeAt 0 = 0 := by decide

/-- A place at which the significand has its leading bit, or at which there is no place
without it. -/
theorem magnitudeAt_eq {s m : Nat} (hlow : leadingBit ≤ m ∨ s = 0) (hhigh : m ≤ 2 * leadingBit) :
    magnitudeAt (s * leadingBit + m) = m * 2 ^ s := by
  rcases hhigh.lt_or_eq with hlt | rfl
  · have hscale : scaleAt (s * leadingBit + m) = s := by
      simp only [scaleAt, leadingBit] at *
      omega
    rw [magnitudeAt, hscale, Nat.add_sub_cancel_left]
  · -- the significand has carried into the next power of two
    have hscale : scaleAt (s * leadingBit + 2 * leadingBit) = s + 1 := by
      simp only [scaleAt, leadingBit]
      omega
    have hrest : s * leadingBit + 2 * leadingBit - (s + 1) * leadingBit = leadingBit := by
      simp only [leadingBit]
      omega
    rw [magnitudeAt, hscale, hrest, Nat.pow_succ]
    ring

/-- **Steps.** From a place to the next the magnitude grows by the scale. -/
theorem magnitudeAt_succ (l : Nat) : magnitudeAt (l + 1) = magnitudeAt l + 2 ^ scaleAt l := by
  have hsplit : l = scaleAt l * leadingBit + (l - scaleAt l * leadingBit) := by
    simp only [scaleAt, leadingBit]
    omega
  have hbounds : (leadingBit ≤ l - scaleAt l * leadingBit ∨ scaleAt l = 0) ∧
      l - scaleAt l * leadingBit + 1 ≤ 2 * leadingBit := by
    simp only [scaleAt, leadingBit]
    omega
  obtain ⟨hlow, hhigh⟩ := hbounds
  generalize scaleAt l = s at hsplit hlow hhigh ⊢
  generalize l - s * leadingBit = m at hsplit hlow hhigh
  subst hsplit
  rw [Nat.add_assoc, magnitudeAt_eq (by omega) hhigh, magnitudeAt_eq hlow (by omega),
    Nat.add_mul, Nat.one_mul]

theorem magnitudeAt_strictMono : StrictMono magnitudeAt := by
  refine strictMono_nat_of_lt_succ fun l => ?_
  rw [magnitudeAt_succ]
  exact Nat.lt_add_of_pos_right (Nat.two_pow_pos _)

theorem magnitude_pos_iff (x : Double) : 0 < x.magnitude ↔ 0 < x.place := by
  have hmono := magnitudeAt_strictMono.lt_iff_lt (a := 0) (b := x.place)
  rwa [magnitudeAt_zero, ← magnitude_eq_magnitudeAt] at hmono

theorem isZero_iff_place (x : Double) : x.isZero = true ↔ x.place = 0 := by
  have hpos := x.magnitude_pos_iff
  rw [isZero, decide_eq_true_eq]
  omega

/-- Doubles with the same sign and the same magnitude are the same. -/
theorem ext_magnitude {x y : Double} (hsign : x.isNegative = y.isNegative)
    (hmagnitude : x.magnitude = y.magnitude) : x = y := by
  rw [magnitude_eq_magnitudeAt, magnitude_eq_magnitudeAt] at hmagnitude
  exact ext_place hsign (magnitudeAt_strictMono.injective hmagnitude)

/-- The absolute value of a double in units is the magnitude at its place. -/
theorem abs_value (x : Double) : |x.value| = magnitudeAt x.place / unitsPerOne := by
  have hpos : (0 : ℚ) ≤ x.magnitude / unitsPerOne := by positivity
  rw [← magnitude_eq_magnitudeAt, value_eq]
  cases hneg : x.isNegative with
  | false => rw [units_of_not_isNegative hneg, Int.cast_natCast, abs_of_nonneg hpos]
  | true =>
    rw [units_of_isNegative hneg, Int.cast_neg, Int.cast_natCast, neg_div, abs_neg,
      abs_of_nonneg hpos]

/-! ## The nearest double -/

/-- Half way from the greatest finite double to the power of two above it. -/
def overflowBound : ℚ := 2 ^ 1024 - 2 ^ 970

/-- `x` is the double nearest to the number `q`, with the given sign; of two that are
equally close it is the one with the even significand, and infinity if `q` is too
great. -/
structure IsNearest (negative : Bool) (q : ℚ) (x : Double) : Prop where
  isNaN_eq : x.isNaN = false
  isNegative_eq : x.isNegative = negative
  isInfinite_iff : x.isInfinite = true ↔ overflowBound ≤ q
  closest : x.isFinite = true → ∀ y : Double, y.isFinite = true →
    |(|x.value| - q)| ≤ |(|y.value| - q)|
  even : x.isFinite = true → ∀ y : Double, y.isFinite = true → |y.value| ≠ |x.value| →
    |(|x.value| - q)| = |(|y.value| - q)| → x.significand % 2 = 0

/-- A number of units lies between the points half way from a place to its neighbours,
and on one of them only if the place is even. -/
structure Settles (l : Nat) (u : ℚ) : Prop where
  low : (magnitudeAt (l - 1) + magnitudeAt l : ℚ) ≤ 2 * u
  high : 2 * u ≤ (magnitudeAt l + magnitudeAt (l + 1) : ℚ)
  even_low : (magnitudeAt (l - 1) + magnitudeAt l : ℚ) = 2 * u → l % 2 = 0
  even_high : 2 * u = (magnitudeAt l + magnitudeAt (l + 1) : ℚ) → l % 2 = 0

/-- No place is closer to a number than the one that it settles; another one is as close
only if the number is half way to a neighbour. -/
theorem Settles.closest {l : Nat} {u : ℚ} (h : Settles l u) (j : Nat) :
    |(magnitudeAt l - u : ℚ)| ≤ |(magnitudeAt j - u : ℚ)| ∧
      (j ≠ l → |(magnitudeAt l - u : ℚ)| = |(magnitudeAt j - u : ℚ)| → l % 2 = 0) := by
  obtain ⟨hlow, hhigh, heven_low, heven_high⟩ := h
  rcases lt_trichotomy j l with hlt | rfl | hgt
  · -- below: the neighbour below is the closest of them
    have hj : (magnitudeAt j : ℚ) ≤ magnitudeAt (l - 1) :=
      Nat.cast_le.mpr (magnitudeAt_strictMono.monotone (by omega))
    have hl : (magnitudeAt (l - 1) : ℚ) < magnitudeAt l :=
      Nat.cast_lt.mpr (magnitudeAt_strictMono (by omega))
    have hdist : |(magnitudeAt j - u : ℚ)| = u - magnitudeAt j := by
      rw [abs_sub_comm, abs_of_nonneg (by linarith)]
    rw [hdist]
    refine ⟨abs_le.mpr ⟨by linarith, by linarith⟩, fun _ heq => heven_low ?_⟩
    rcases abs_cases (magnitudeAt l - u : ℚ) with ⟨habs, -⟩ | ⟨habs, -⟩ <;> linarith
  · exact ⟨le_rfl, fun hne => absurd rfl hne⟩
  · have hj : (magnitudeAt (l + 1) : ℚ) ≤ magnitudeAt j :=
      Nat.cast_le.mpr (magnitudeAt_strictMono.monotone (by omega))
    have hl : (magnitudeAt l : ℚ) < magnitudeAt (l + 1) :=
      Nat.cast_lt.mpr (magnitudeAt_strictMono (by omega))
    have hdist : |(magnitudeAt j - u : ℚ)| = magnitudeAt j - u := abs_of_nonneg (by linarith)
    rw [hdist]
    refine ⟨abs_le.mpr ⟨by linarith, by linarith⟩, fun _ heq => heven_high ?_⟩
    rcases abs_cases (magnitudeAt l - u : ℚ) with ⟨habs, -⟩ | ⟨habs, -⟩ <;> linarith

theorem two_pow_mul_two_pow {a b c : Nat} (h : a + b = c) : (2 : ℚ) ^ a * 2 ^ b = 2 ^ c := by
  rw [← pow_add, h]

/-- The places around infinity, in units: half way between them is where numbers are too
great. -/
theorem magnitudeAt_infinityBits :
    (magnitudeAt (infinityBits - 1) + magnitudeAt infinityBits : ℚ) =
      2 * (overflowBound * unitsPerOne) := by
  have hlast : magnitudeAt infinityBits = leadingBit * 2 ^ 2046 := by
    rw [show infinityBits = 2046 * leadingBit + leadingBit by decide]
    exact magnitudeAt_eq (.inl le_rfl) (by decide)
  have hstep : magnitudeAt infinityBits = magnitudeAt (infinityBits - 1) + 2 ^ 2045 := by
    have hsucc := magnitudeAt_succ (infinityBits - 1)
    rwa [show infinityBits - 1 + 1 = infinityBits by decide,
      show scaleAt (infinityBits - 1) = 2045 by decide] at hsucc
  have hunits : (unitsPerOne : ℚ) = 2 ^ 1074 := by
    rw [unitsPerOne_eq rfl, Nat.cast_pow, Nat.cast_ofNat]
  have hbelow : (magnitudeAt (infinityBits - 1) : ℚ) = magnitudeAt infinityBits - 2 ^ 2045 := by
    rw [hstep, Nat.cast_add, Nat.cast_pow, Nat.cast_ofNat, add_sub_cancel_right]
  have hlead : (leadingBit : ℚ) = 2 ^ 52 := by norm_num [leadingBit]
  rw [hbelow, hlast, Nat.cast_mul, hlead, hunits, overflowBound, Nat.cast_pow, Nat.cast_ofNat,
    sub_mul, two_pow_mul_two_pow (show 52 + 2046 = 2098 from rfl),
    two_pow_mul_two_pow (show 1024 + 1074 = 2098 from rfl),
    two_pow_mul_two_pow (show 970 + 1074 = 2044 from rfl),
    ← two_pow_mul_two_pow (show 2044 + 1 = 2045 from rfl)]
  generalize (2 : ℚ) ^ 2098 = a
  generalize (2 : ℚ) ^ 2044 = b
  ring

/-- A number that settles the place of a finite double is not too great. -/
theorem Settles.lt_overflowBound {l : Nat} {q : ℚ} (h : Settles l (q * unitsPerOne))
    (hl : l < infinityBits) : q < overflowBound := by
  have hunit : (0 : ℚ) < unitsPerOne := Nat.cast_pos.mpr unitsPerOne_pos
  have hnext : (magnitudeAt l + magnitudeAt (l + 1) : ℚ) ≤
      magnitudeAt (infinityBits - 1) + magnitudeAt infinityBits := by
    have hfirst : magnitudeAt l ≤ magnitudeAt (infinityBits - 1) :=
      magnitudeAt_strictMono.monotone (by omega)
    have hsecond : magnitudeAt (l + 1) ≤ magnitudeAt infinityBits :=
      magnitudeAt_strictMono.monotone (by omega)
    exact_mod_cast Nat.add_le_add hfirst hsecond
  rw [magnitudeAt_infinityBits] at hnext
  have hle : q * unitsPerOne ≤ overflowBound * unitsPerOne := by linarith [h.high]
  refine lt_of_le_of_ne (le_of_mul_le_mul_right hle hunit) fun heq => ?_
  -- the last finite place is odd, so that half way beyond it does not settle it
  subst heq
  have hsame : 2 * (overflowBound * unitsPerOne) = magnitudeAt l + magnitudeAt (l + 1) :=
    le_antisymm h.high hnext
  have hlast : l = infinityBits - 1 := by
    by_contra hne
    have hless : magnitudeAt l < magnitudeAt (infinityBits - 1) :=
      magnitudeAt_strictMono (by omega)
    have hsecond : magnitudeAt (l + 1) ≤ magnitudeAt infinityBits :=
      magnitudeAt_strictMono.monotone (by omega)
    have hsum : (magnitudeAt l + magnitudeAt (l + 1) : ℚ) <
        magnitudeAt (infinityBits - 1) + magnitudeAt infinityBits := by
      exact_mod_cast Nat.add_lt_add_of_lt_of_le hless hsecond
    rw [magnitudeAt_infinityBits, ← hsame] at hsum
    exact hsum.false
  have heven := h.even_high hsame
  rw [hlast] at heven
  revert heven
  decide

/-- How far the absolute value of a double is from a number, in units. -/
theorem abs_abs_value_sub (y : Double) (q : ℚ) :
    |(|y.value| - q)| = |(magnitudeAt y.place - q * unitsPerOne : ℚ)| / unitsPerOne := by
  have hunit : (0 : ℚ) < unitsPerOne := Nat.cast_pos.mpr unitsPerOne_pos
  rw [abs_value, div_sub' hunit.ne', abs_div, abs_of_pos hunit, mul_comm (unitsPerOne : ℚ)]

/-- **Rounding by neighbours.** The double at the place that a number settles is the
nearest one. -/
theorem Settles.isNearest {l : Nat} {q : ℚ} (h : Settles l (q * unitsPerOne))
    (hl : l < infinityBits) (negative : Bool) : IsNearest negative q (assemble negative l) := by
  have hunit : (0 : ℚ) < unitsPerOne := Nat.cast_pos.mpr unitsPerOne_pos
  obtain ⟨hplace, hsign⟩ := place_assemble negative (hl.trans (by decide))
  refine ⟨?_, hsign, ?_, ?_, ?_⟩
  · refine Bool.eq_false_iff.mpr fun hnan => ?_
    rw [isNaN_iff_place, hplace] at hnan
    omega
  · rw [isInfinite_iff_place, hplace]
    exact iff_of_false hl.ne (h.lt_overflowBound hl).not_ge
  · intro _ y _
    rw [abs_abs_value_sub, abs_abs_value_sub, hplace]
    exact div_le_div_of_nonneg_right (h.closest y.place).1 hunit.le
  · intro _ y _ hne heq
    rw [abs_abs_value_sub, abs_abs_value_sub, hplace] at heq
    rw [significand_mod_two, hplace]
    refine (h.closest y.place).2 (fun hsame => hne ?_) ((div_left_inj' hunit.ne').mp heq)
    rw [abs_value, abs_value, hplace, hsame]

/-- Which of two numbers is closer to a third one depends on where their middle is. -/
theorem abs_sub_le_abs_sub_iff {a b u : ℚ} (h : a < b) :
    (|b - u| ≤ |a - u| ↔ a + b ≤ 2 * u) ∧ (|a - u| ≤ |b - u| ↔ 2 * u ≤ a + b) := by
  rcases abs_cases (a - u) with ⟨ha, hsign⟩ | ⟨ha, hsign⟩ <;>
    rcases abs_cases (b - u) with ⟨hb, hsign'⟩ | ⟨hb, hsign'⟩ <;>
      rw [ha, hb] <;> constructor <;> constructor <;> intro hle <;> linarith

/-- The place of a double as a neighbour of another one: not closer to a number that the other
is nearest to, and as close only if the other is even. -/
theorem IsNearest.closest_place {negative : Bool} {q : ℚ} {x : Double}
    (h : IsNearest negative q x) (hfinite : x.isFinite = true) {j : Nat} (hj : j < infinityBits) :
    |(magnitudeAt x.place - q * unitsPerOne : ℚ)| ≤ |(magnitudeAt j - q * unitsPerOne : ℚ)| ∧
      (j ≠ x.place → |(magnitudeAt x.place - q * unitsPerOne : ℚ)| =
        |(magnitudeAt j - q * unitsPerOne : ℚ)| → x.place % 2 = 0) := by
  have hunit : (0 : ℚ) < unitsPerOne := Nat.cast_pos.mpr unitsPerOne_pos
  obtain ⟨hplace, -⟩ := place_assemble false (hj.trans (show infinityBits < signBit by decide))
  have hfinite' : (assemble false j).isFinite = true := by rwa [isFinite_iff_place, hplace]
  have hclosest := h.closest hfinite _ hfinite'
  have heven := h.even hfinite _ hfinite'
  rw [abs_abs_value_sub, abs_abs_value_sub, hplace] at hclosest heven
  refine ⟨(div_le_div_iff_of_pos_right hunit).mp hclosest, fun hne heq => ?_⟩
  rw [← significand_mod_two]
  refine heven (fun hsame => hne ?_) (by rw [heq])
  rw [abs_value, abs_value, hplace, div_left_inj' hunit.ne', Nat.cast_inj] at hsame
  exact magnitudeAt_strictMono.injective hsame

/-- **A number settles** the place of the finite double that it is nearest to. -/
theorem IsNearest.settles {negative : Bool} {q : ℚ} {x : Double} (h : IsNearest negative q x)
    (hfinite : x.isFinite = true) (hpos : 0 < x.place) :
    Settles x.place (q * unitsPerOne) := by
  have hunit : (0 : ℚ) < unitsPerOne := Nat.cast_pos.mpr unitsPerOne_pos
  have hbound := (isFinite_iff_place x).mp hfinite
  have hbelow : (magnitudeAt (x.place - 1) : ℚ) < magnitudeAt x.place :=
    Nat.cast_lt.mpr (magnitudeAt_strictMono (by omega))
  have habove : (magnitudeAt x.place : ℚ) < magnitudeAt (x.place + 1) :=
    Nat.cast_lt.mpr (magnitudeAt_strictMono (by omega))
  obtain ⟨hlow, heven_low⟩ := h.closest_place hfinite (show x.place - 1 < infinityBits by omega)
  have hmiddle : (magnitudeAt (x.place - 1) + magnitudeAt x.place : ℚ) = 2 * (q * unitsPerOne) →
      x.place % 2 = 0 := fun heq =>
    heven_low (by omega) (le_antisymm hlow ((abs_sub_le_abs_sub_iff hbelow).2.mpr heq.ge))
  have hhigh : 2 * (q * unitsPerOne) ≤ (magnitudeAt x.place + magnitudeAt (x.place + 1) : ℚ) ∧
      (2 * (q * unitsPerOne) = (magnitudeAt x.place + magnitudeAt (x.place + 1) : ℚ) →
        x.place % 2 = 0) := by
    rcases (Nat.succ_le_of_lt hbound).lt_or_eq with hlt | hlast
    · obtain ⟨hle, heven⟩ := h.closest_place hfinite hlt
      refine ⟨(abs_sub_le_abs_sub_iff habove).2.mp hle, fun heq => heven (by omega) ?_⟩
      exact le_antisymm hle ((abs_sub_le_abs_sub_iff habove).1.mpr heq.ge)
    · -- half way from the last place on, a number is too great
      have hless : q < overflowBound := by
        refine not_le.mp fun hgreat => ?_
        have hinfinite := (isInfinite_iff_place x).mp (h.isInfinite_iff.mpr hgreat)
        omega
      have hsum := magnitudeAt_infinityBits
      rw [← hlast, Nat.succ_sub_one] at hsum
      have hscaled := mul_lt_mul_of_pos_right hless hunit
      exact ⟨by linarith, fun heq => absurd heq (by linarith : _ < _).ne⟩
  exact ⟨(abs_sub_le_abs_sub_iff hbelow).1.mp hlow, hhigh.1, hmiddle, hhigh.2⟩

/-- Infinity is the nearest double to a number that is too great. -/
theorem isNearest_infinity {q : ℚ} (h : overflowBound ≤ q) (negative : Bool) :
    IsNearest negative q (assemble negative infinityBits) := by
  obtain ⟨hplace, hsign⟩ := place_assemble negative (show infinityBits < signBit by decide)
  have hinfinite : (assemble negative infinityBits).isInfinite = true :=
    (isInfinite_iff_place _).mpr hplace
  have hfinite : (assemble negative infinityBits).isFinite ≠ true := by
    rw [ne_eq, isFinite_iff_place, hplace]
    exact lt_irrefl _
  exact ⟨isNaN_of_isInfinite hinfinite, hsign, iff_of_true hinfinite h,
    fun hfin => absurd hfin hfinite, fun hfin => absurd hfin hfinite⟩

/-! ## There is only one -/

/-- Of two nearest doubles none comes first. -/
theorem IsNearest.not_place_lt {negative : Bool} {q : ℚ} {x y : Double}
    (hx : IsNearest negative q x) (hy : IsNearest negative q y) (hfinite : y.isFinite = true) :
    ¬ x.place < y.place := by
  intro hlt
  have hunit : (0 : ℚ) < unitsPerOne := Nat.cast_pos.mpr unitsPerOne_pos
  have hbound := (isFinite_iff_place y).mp hfinite
  have hfinite' : x.isFinite = true := (isFinite_iff_place x).mpr (hlt.trans hbound)
  have hvalue {i j : Nat} (hij : i < j) :
      (magnitudeAt i / unitsPerOne : ℚ) < magnitudeAt j / unitsPerOne :=
    div_lt_div_of_pos_right (Nat.cast_lt.mpr (magnitudeAt_strictMono hij)) hunit
  have hless := hvalue hlt
  have hne : |x.value| ≠ |y.value| := by
    rw [abs_value, abs_value]
    exact hless.ne
  have hdist := le_antisymm (hx.closest hfinite' y hfinite) (hy.closest hfinite x hfinite')
  have hxeven := hx.even hfinite' y hfinite hne.symm hdist
  have hyeven := hy.even hfinite x hfinite' hne hdist.symm
  rw [significand_mod_two] at hxeven hyeven
  -- the double after `x` lies strictly between the two, and so it is closer
  have hbetween : x.place + 1 < y.place := by omega
  obtain ⟨hplace, -⟩ := place_assemble false (show x.place + 1 < signBit from
    hbetween.trans y.place_lt)
  have hcloser := hx.closest hfinite' (assemble false (x.place + 1))
    ((isFinite_iff_place _).mpr (by rw [hplace]; omega))
  rw [abs_value, abs_value] at hdist hcloser
  rw [hplace] at hcloser
  have habove := hvalue (show x.place < x.place + 1 by omega)
  have hbelow := hvalue hbetween
  have hmiddle : (magnitudeAt x.place / unitsPerOne + magnitudeAt y.place / unitsPerOne : ℚ) =
      2 * q := by
    rcases abs_eq_abs.mp hdist with heq | heq <;> linarith
  rw [abs_of_nonpos (by linarith)] at hcloser
  exact (abs_lt.mpr ⟨by linarith, by linarith⟩).not_ge hcloser

/-- **A number has one nearest double** of each sign. -/
theorem IsNearest.unique {negative : Bool} {q : ℚ} {x y : Double} (hx : IsNearest negative q x)
    (hy : IsNearest negative q y) : x = y := by
  refine ext_place (hx.isNegative_eq.trans hy.isNegative_eq.symm) ?_
  cases hinf : x.isInfinite with
  | true =>
    have hinf' : y.isInfinite = true := hy.isInfinite_iff.mpr (hx.isInfinite_iff.mp hinf)
    rw [(isInfinite_iff_place x).mp hinf, (isInfinite_iff_place y).mp hinf']
  | false =>
    have hfinite := isFinite_of_not hx.isNaN_eq hinf
    have hfinite' : y.isFinite = true := by
      refine isFinite_of_not hy.isNaN_eq (Bool.eq_false_iff.mpr fun hinf' => ?_)
      rw [hx.isInfinite_iff.mpr (hy.isInfinite_iff.mp hinf')] at hinf
      cases hinf
    exact Nat.le_antisymm (Nat.le_of_not_lt (hy.not_place_lt hx hfinite))
      (Nat.le_of_not_lt (hx.not_place_lt hy hfinite'))

end Ecma.Double
