import Ecma.Proofs.Number.IntegerArithmetic

/-!
# Rounding to single precision

A number of **single precision** has up to 24 binary digits, the last of which stands for a
power of two from `2 ^ -149` to `2 ^ 104`. Counted in units these numbers are the points of a
grid, below the limit at which single precision ends (`isSingle_iff`), and `toSingle` rounds to
that grid. A point of it stays where it is (`toSingle_of_isSingle`), and what is rounded to it
is a point unless it is too great (`isSingle_toSingle`): the digit that a carry adds is a zero at
the other end. So rounding a second time changes nothing.
-/

namespace Ecma.Double

variable {x : Double}

/-! ## Numbers of single precision -/

/-- Single precision represents the number exactly. -/
structure IsSingle (x : Double) : Prop where
  isFinite : x.isFinite = true
  digits : ∃ m e : ℤ, |m| < 2 ^ 24 ∧ -149 ≤ e ∧ e ≤ 104 ∧ x.value = m * 2 ^ e

/-- The limit of single precision as a power of two; as with `unitsPerOne_eq` the exponent is
not spelled out. -/
theorem singleLimit_eq {e : Nat} (h : 1074 + 128 = e) : singleLimit = 2 ^ e := by
  unfold singleLimit
  generalize 1074 + 128 = n at h
  rw [h]
  rfl

/-- Moving the point by as many digits as one has makes a value one in units. -/
theorem two_zpow_mul_unitsPerOne {e : ℤ} {s : Nat} (h : e + 1074 = s) :
    (2 : ℚ) ^ e * unitsPerOne = 2 ^ s := by
  obtain ⟨n, hn⟩ : ∃ n, 1074 = n := ⟨_, rfl⟩
  rw [unitsPerOne_eq hn, Nat.cast_pow, Nat.cast_ofNat, ← zpow_natCast, ← zpow_natCast,
    ← zpow_add₀ two_ne_zero]
  congr 1
  omega

/-- **Single precision in units**: 24 binary digits, the last of them at a scale from 925 to
1178. -/
theorem isSingle_iff : x.IsSingle ↔ x.isFinite = true ∧
    ∃ k s, k < 2 ^ 24 ∧ 925 ≤ s ∧ s ≤ 1178 ∧ x.magnitude = k * 2 ^ s := by
  constructor
  · rintro ⟨hfinite, m, e, hm, hlow, hhigh, hvalue⟩
    rw [Int.abs_eq_natAbs] at hm
    refine ⟨hfinite, m.natAbs, (e + 1074).toNat, by omega, by omega, by omega, ?_⟩
    have hunits : (x.units : ℚ) = (m * 2 ^ (e + 1074).toNat : ℤ) := by
      rw [← value_mul_unitsPerOne, hvalue, mul_assoc,
        two_zpow_mul_unitsPerOne (s := (e + 1074).toNat) (by omega)]
      push_cast
      rfl
    rw [← natAbs_units, Int.cast_injective hunits, Int.natAbs_mul, Int.natAbs_pow]
    rfl
  · rintro ⟨hfinite, k, s, hk, hlow, hhigh, hmagnitude⟩
    refine ⟨hfinite, if x.isNegative then -(k : ℤ) else k, s - 1074, ?_, by omega, by omega, ?_⟩
    · split <;> simp only [abs_neg, Nat.abs_cast] <;> exact_mod_cast hk
    · have hunit : (unitsPerOne : ℚ) ≠ 0 := Nat.cast_ne_zero.mpr unitsPerOne_pos.ne'
      refine mul_right_cancel₀ hunit ?_
      rw [value_mul_unitsPerOne, mul_assoc, two_zpow_mul_unitsPerOne (s := s) (by omega), units,
        hmagnitude]
      split <;> push_cast <;> ring

/-- What single precision represents is below its limit. -/
theorem lt_singleLimit {k s : Nat} (hk : k < 2 ^ 24) (hs : s ≤ 1178) :
    k * 2 ^ s < singleLimit := by
  obtain ⟨e, he⟩ : ∃ e, 1074 + 128 = e := ⟨_, rfl⟩
  rw [singleLimit_eq he]
  calc k * 2 ^ s < 2 ^ 24 * 2 ^ s := Nat.mul_lt_mul_of_pos_right hk (Nat.two_pow_pos s)
    _ = 2 ^ (24 + s) := (Nat.pow_add 2 24 s).symm
    _ ≤ 2 ^ e := Nat.pow_le_pow_right Nat.two_pos (by omega)

/-- Conversely a point of the grid below the limit has a last digit of single precision. Where
rounding has carried, the last of 25 digits is zero and the next one takes its place. -/
theorem exists_digits_of_lt_singleLimit {m s : Nat} (hhigh : m ≤ 2 ^ 24)
    (hlow : 2 ^ 23 ≤ m ∨ s = 925) (hs : 925 ≤ s) (hlimit : m * 2 ^ s < singleLimit) :
    ∃ k t, k < 2 ^ 24 ∧ 925 ≤ t ∧ t ≤ 1178 ∧ m * 2 ^ s = k * 2 ^ t := by
  obtain ⟨e, he⟩ : ∃ e, 1074 + 128 = e := ⟨_, rfl⟩
  rw [singleLimit_eq he] at hlimit
  have hscale {a : Nat} (ha : 2 ^ a ≤ m) : a + s < e := by
    refine (Nat.pow_lt_pow_iff_right Nat.one_lt_two).mp ?_
    calc 2 ^ (a + s) = 2 ^ a * 2 ^ s := Nat.pow_add 2 a s
      _ ≤ m * 2 ^ s := Nat.mul_le_mul_right _ ha
      _ < 2 ^ e := hlimit
  rcases hhigh.lt_or_eq with hlt | rfl
  · refine ⟨m, s, hlt, hs, ?_, rfl⟩
    rcases hlow with hfull | rfl
    · have := hscale hfull
      omega
    · decide
  · have := hscale (Nat.le_refl (2 ^ 24))
    refine ⟨2 ^ 23, s + 1, by decide, by omega, by omega, ?_⟩
    rw [Nat.pow_succ 2 s]
    ring

/-! ## Rounding -/

theorem toSingle_of_isNaN (h : x.isNaN = true) : x.toSingle = nan := by
  rw [toSingle, if_pos h]

theorem toSingle_of_isInfinite (h : x.isInfinite = true) : x.toSingle = x := by
  rw [toSingle, isNaN_of_isInfinite h, if_neg Bool.false_ne_true, if_pos h]

/-- A finite number is rounded to the grid and becomes infinite at the limit. -/
theorem toSingle_of_isFinite (h : x.isFinite = true) {m s : Nat}
    (hround : gridRound 24 925 x.magnitude 1 = (m, s)) :
    x.toSingle = if singleLimit ≤ m * 2 ^ s then assemble x.isNegative infinityBits
      else ofUnits x.isNegative (m * 2 ^ s) 1 := by
  rw [toSingle, isNaN_of_isFinite h, isInfinite_of_isFinite h, hround,
    if_neg Bool.false_ne_true, if_neg Bool.false_ne_true]
  rfl

/-- A finite double is the one nearest to its own magnitude. -/
theorem ofUnits_magnitude (h : x.isFinite = true) : ofUnits x.isNegative x.magnitude 1 = x := by
  obtain ⟨-, hsign, hmagnitude⟩ :=
    ofUnits_exact x.isNegative x.significand_lt (scale_lt_of_isFinite h)
  rw [← magnitude_eq] at hsign hmagnitude
  exact ext_magnitude hsign hmagnitude

/-- **What single precision represents** is not changed by rounding. -/
theorem toSingle_of_isSingle (h : x.IsSingle) : x.toSingle = x := by
  obtain ⟨hfinite, k, s, hk, hlow, hhigh, hmagnitude⟩ := isSingle_iff.mp h
  obtain ⟨t, ht, hround⟩ : ∃ t ≤ s, gridRound 24 925 (k * 2 ^ s) 1 = (k * 2 ^ (s - t), t) :=
    gridRound_point 23 925 hk hlow
  have hpoint : k * 2 ^ (s - t) * 2 ^ t = x.magnitude := by
    rw [Nat.mul_assoc, ← Nat.pow_add, Nat.sub_add_cancel ht, hmagnitude]
  have hlimit : x.magnitude < singleLimit := by
    rw [hmagnitude]
    exact lt_singleLimit hk hhigh
  rw [← hmagnitude] at hround
  rw [toSingle_of_isFinite hfinite hround, hpoint, if_neg hlimit.not_ge,
    ofUnits_magnitude hfinite]

/-- **What is rounded** is represented in single precision, or infinite. -/
theorem isSingle_toSingle (h : x.isFinite = true) :
    x.toSingle.isInfinite = true ∨ x.toSingle.IsSingle := by
  obtain ⟨hhigh, hlow⟩ : (gridRound 24 925 x.magnitude 1).1 ≤ 2 ^ 24 ∧
      (2 ^ 23 ≤ (gridRound 24 925 x.magnitude 1).1 ∨ (gridRound 24 925 x.magnitude 1).2 = 925) :=
    gridRound_bounds 23 925 x.magnitude Nat.one_pos
  have hleast := minScale_le_gridRound 24 925 x.magnitude 1
  rcases hround : gridRound 24 925 x.magnitude 1 with ⟨m, s⟩
  rw [hround] at hhigh hlow hleast
  rw [toSingle_of_isFinite h hround]
  split
  · refine .inl ?_
    rw [isInfinite_iff_place]
    exact (place_assemble x.isNegative (by decide)).1
  · next hlimit =>
    obtain ⟨k, t, hk, ht, ht', hpoint⟩ :=
      exists_digits_of_lt_singleLimit hhigh hlow hleast (Nat.lt_of_not_le hlimit)
    obtain ⟨hfinite, -, hmagnitude⟩ := ofUnits_exact x.isNegative
      (hk.trans (by decide : 2 ^ 24 < 2 * leadingBit)) (by omega : t < 2046)
    rw [hpoint]
    exact .inr (isSingle_iff.mpr ⟨hfinite, k, t, hk, ht, ht', hmagnitude⟩)

/-- Whatever is rounded becomes the quiet not-a-number, an infinity or a number of single
precision. -/
theorem toSingle_cases (x : Double) :
    x.toSingle = nan ∨ x.toSingle.isInfinite = true ∨ x.toSingle.IsSingle := by
  cases hnan : x.isNaN with
  | true => exact .inl (toSingle_of_isNaN hnan)
  | false =>
    cases hinf : x.isInfinite with
    | true =>
      rw [toSingle_of_isInfinite hinf]
      exact .inr (.inl hinf)
    | false => exact .inr (isSingle_toSingle (isFinite_of_not hnan hinf))

/-- Rounding a second time changes nothing. -/
theorem toSingle_toSingle (x : Double) : x.toSingle.toSingle = x.toSingle := by
  rcases x.toSingle_cases with hnan | hinf | hsingle
  · rw [hnan]
    decide
  · exact toSingle_of_isInfinite hinf
  · exact toSingle_of_isSingle hsingle

end Ecma.Double
