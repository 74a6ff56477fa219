import Ecma.Number.Text
import Ecma.Proofs.Number.Shortest

/-!
# Fewest digits

Where the search finds a decimal, none with fewer digits reads back. The reason is that a
decimal of at most `k` digits does not lie strictly between two neighbours of the grid for
`k` digits (`Decimal.value_le_or_le`). What reads back as a double is an interval around it;
so if such a decimal reads back, then so does the neighbour of the double that lies on its
side (`exists_neighbour`). For seventeen digits the interval is wider than the grid, and the
search ends there at the latest (`isSome_shortestWith_seventeen`).

So the shortest decimal has the fewest digits, as `Number::toString` demands, and among
those it is the nearest and the even one, as is recommended there
(`isClosestShortest_shortest`). What is proved of numbers as text rests on the demand alone:
it holds for every printer that `PrintsShortest`.
-/

namespace Ecma

/-- Numbers with at most `k` decimal digits. -/
theorem decimalLength_le_iff {n k : Nat} : decimalLength n ≤ k ↔ n < 10 ^ k := by
  by_cases hzero : n = 0
  · rw [hzero, decimalLength, if_pos rfl]
    exact iff_of_true (Nat.zero_le k) (Nat.pow_pos (by decide))
  · obtain ⟨hlow, hhigh⟩ := Decimal.decimalLength_spec hzero
    constructor
    · intro hle
      exact hhigh.trans_le (Nat.pow_le_pow_right (by decide) hle)
    · intro hlt
      by_contra hmore
      exact absurd (hlow.trans_lt hlt)
        (Nat.pow_le_pow_right (by decide) (by omega : k ≤ decimalLength n - 1)).not_gt

namespace Decimal

/-! ## Trailing zeros -/

/-- Zeros are moved from the digits to the exponent, and nothing else is done. -/
theorem exists_strip (fuel : Nat) (d : Decimal) : ∃ t : Nat,
    d.digits = (strip fuel d).digits * 10 ^ t ∧ (strip fuel d).exponent = d.exponent + t := by
  induction fuel generalizing d with
  | zero => exact ⟨0, (Nat.mul_one _).symm, (add_zero _).symm⟩
  | succ fuel ih =>
    rw [strip]
    split
    · next h =>
      obtain ⟨t, hdigits, hexponent⟩ := ih ⟨d.digits / 10, d.exponent + 1⟩
      dsimp only at hdigits hexponent
      refine ⟨t + 1, ?_, by omega⟩
      rw [Nat.pow_succ, ← Nat.mul_assoc, ← hdigits]
      omega
    · exact ⟨0, (Nat.mul_one _).symm, (add_zero _).symm⟩

theorem value_normalize (d : Decimal) : d.normalize.value = d.value := by
  obtain ⟨t, hdigits, hexponent⟩ := exists_strip (decimalLength d.digits) d
  rw [← normalize] at hdigits hexponent
  rw [value, value, hdigits, hexponent, zpow_add₀ (by norm_num), zpow_natCast]
  push_cast
  ring

/-- No zero is left behind. -/
theorem strip_digits_mod {fuel : Nat} {d : Decimal} (hpos : 0 < d.digits)
    (hfuel : d.digits < 10 ^ fuel) : (strip fuel d).digits % 10 ≠ 0 := by
  induction fuel generalizing d with
  | zero => omega
  | succ fuel ih =>
    rw [strip]
    split
    · next h =>
      refine ih (by dsimp only; omega) ?_
      dsimp only
      omega
    · next h => exact h

/-- **Normal form.** The digits lose their trailing zeros. -/
theorem normalize_spec {d : Decimal} (hpos : 0 < d.digits) :
    d.normalize.digits % 10 ≠ 0 ∧ ∃ t : Nat, d.digits = d.normalize.digits * 10 ^ t := by
  obtain ⟨t, hdigits, -⟩ := exists_strip (decimalLength d.digits) d
  exact ⟨strip_digits_mod hpos (decimalLength_le_iff.mp le_rfl), t, hdigits⟩

/-- Up to `10 ^ k` the digits of a normal form are at most `k`. -/
theorem decimalLength_normalize_le {d : Decimal} {k : Nat} (hpos : 0 < d.digits) (hk : 0 < k)
    (hle : d.digits ≤ 10 ^ k) : decimalLength d.normalize.digits ≤ k := by
  obtain ⟨hlast, t, hdigits⟩ := normalize_spec hpos
  have hless : d.normalize.digits ≤ d.digits := by
    rw [hdigits]
    exact Nat.le_mul_of_pos_right _ (Nat.pow_pos (by decide))
  refine decimalLength_le_iff.mpr (lt_of_le_of_ne (hless.trans hle) fun heq => hlast ?_)
  rw [heq]
  exact Nat.mod_eq_zero_of_dvd (dvd_pow_self 10 hk.ne')

/-- If that leaves `k` digits, there were no zeros, except where nine was rounded up to ten. -/
theorem digits_normalize {d : Decimal} {k : Nat} (hpos : 0 < d.digits) (hk : 0 < k)
    (hle : d.digits ≤ 10 ^ k) (hfew : k ≤ decimalLength d.normalize.digits) :
    d.normalize.digits = d.digits ∨ k = 1 ∧ d.digits = 10 := by
  obtain ⟨hlast, t, hdigits⟩ := normalize_spec hpos
  generalize d.normalize.digits = s at hlast hdigits hfew
  rcases t with _ | t
  · rw [Nat.pow_zero, Nat.mul_one] at hdigits
    exact .inl hdigits.symm
  · obtain ⟨j, rfl⟩ : ∃ j, k = j + 1 := ⟨k - 1, by omega⟩
    have hleast : 10 ^ j ≤ s := by
      by_contra hless
      have := decimalLength_le_iff.mpr (Nat.lt_of_not_le hless)
      omega
    rw [Nat.pow_succ, ← Nat.mul_assoc] at hdigits
    have hsmall : s * 10 ^ t ≤ 10 ^ j := by
      rw [Nat.pow_succ] at hle
      omega
    have hmost : s ≤ s * 10 ^ t := Nat.le_mul_of_pos_right s (Nat.pow_pos (by decide))
    obtain rfl : s = 10 ^ j := by omega
    obtain rfl : j = 0 := by
      by_contra hj
      exact hlast (Nat.mod_eq_zero_of_dvd (dvd_pow_self 10 hj))
    exact .inr ⟨rfl, by omega⟩

/-- **Grids.** A decimal of at most `k` digits does not lie strictly between two neighbours
that have `k` digits. -/
theorem value_le_or_le {e : Decimal} {k low : Nat} (g : Int) (hk : 0 < k)
    (he : decimalLength e.digits ≤ k) (hlow : 10 ^ (k - 1) ≤ low) :
    e.value ≤ (⟨low, g⟩ : Decimal).value ∨ (⟨low + 1, g⟩ : Decimal).value ≤ e.value := by
  have hgrid : (0 : ℚ) < 10 ^ g := by positivity
  rcases le_or_gt g e.exponent with hge | hlt
  · -- a point of the grid
    obtain ⟨j, hj⟩ := Int.eq_ofNat_of_zero_le (sub_nonneg.mpr hge)
    have hvalue : e.value = (e.digits * 10 ^ j : Nat) * (10 : ℚ) ^ g := by
      rw [value, show e.exponent = j + g by omega, zpow_add₀ (by norm_num), zpow_natCast]
      push_cast
      ring
    rw [hvalue, value, value]
    rcases Nat.lt_or_ge low (e.digits * 10 ^ j) with hless | hmore
    · exact .inr (mul_le_mul_of_nonneg_right (Nat.cast_le.mpr hless) hgrid.le)
    · exact .inl (mul_le_mul_of_nonneg_right (Nat.cast_le.mpr hmore) hgrid.le)
  · -- too few places for the grid
    refine .inl ?_
    have hpoint : (10 : ℚ) ^ ((k : Int) - 1 + g) ≤ (⟨low, g⟩ : Decimal).value := by
      rw [value, show (k : Int) - 1 = (k - 1 : Nat) by omega, zpow_add₀ (by norm_num), zpow_natCast]
      exact mul_le_mul_of_nonneg_right (by exact_mod_cast hlow) hgrid.le
    refine le_trans ?_ hpoint
    by_cases hzero : e.digits = 0
    · rw [value, hzero, Nat.cast_zero, zero_mul]
      positivity
    · exact (value_bounds hzero).2.le.trans (zpow_le_zpow_right₀ (by norm_num) (by omega))

end Decimal

namespace Double

/-! ## The first digit -/

theorem gridStep_add (a b : Nat) : gridStep (a + b) = 10 ^ a * gridStep b := by
  have hpow : Nat.pow 10 (a + b) = 10 ^ a * Nat.pow 10 b := Nat.pow_add 10 a b
  rw [gridStep, gridStep, hpow, Nat.mul_assoc]

/-- The finest grid gives every double at least seventeen digits. -/
theorem gridDigits_spec {x : Double} (hpos : 0 < x.magnitude) :
    17 ≤ x.gridDigits ∧ gridStep (x.gridDigits - 1) ≤ x.scaledMagnitude ∧
      x.scaledMagnitude < gridStep x.gridDigits := by
  have hleast : 10 ^ 17 ≤ x.scaledMagnitude / quarterUnitsPerOne := by
    have hfine : 10 ^ 17 * unitsPerOne ≤ gridFactor := by decide +kernel
    rw [Nat.le_div_iff_mul_le quarterUnitsPerOne_pos, scaledMagnitude, quarterUnitsPerOne]
    calc 10 ^ 17 * (4 * unitsPerOne) = 4 * (10 ^ 17 * unitsPerOne) := by ring
      _ ≤ 4 * gridFactor := Nat.mul_le_mul_left 4 hfine
      _ ≤ 4 * x.magnitude * gridFactor := Nat.mul_le_mul_right _ (by omega)
  have hne : x.scaledMagnitude / quarterUnitsPerOne ≠ 0 := by
    have : 0 < 10 ^ 17 := Nat.pow_pos (by decide)
    omega
  obtain ⟨hlow, hhigh⟩ := Decimal.decimalLength_spec hne
  rw [← gridDigits, Nat.le_div_iff_mul_le quarterUnitsPerOne_pos] at hlow
  rw [← gridDigits, Nat.div_lt_iff_lt_mul quarterUnitsPerOne_pos] at hhigh
  refine ⟨?_, hlow, hhigh⟩
  by_contra hfew
  have hmore : decimalLength (x.scaledMagnitude / quarterUnitsPerOne) ≤ 17 :=
    (Nat.lt_of_not_le hfew).le
  exact absurd (decimalLength_le_iff.mp hmore) hleast.not_gt

/-- On the grid for `k` digits the magnitude has `k` digits. -/
theorem gridFloor_bounds {x : Double} (hpos : 0 < x.magnitude) {k : Nat} (hk : 0 < k)
    (hle : k ≤ 17) :
    10 ^ (k - 1) ≤ x.gridFloor (x.gridDigits - k) ∧ x.gridFloor (x.gridDigits - k) < 10 ^ k := by
  obtain ⟨hmany, hlow, hhigh⟩ := gridDigits_spec hpos
  rw [show x.gridDigits - 1 = (k - 1) + (x.gridDigits - k) by omega, gridStep_add] at hlow
  rw [show x.gridDigits = k + (x.gridDigits - k) by omega, gridStep_add] at hhigh
  have hstep := gridStep_pos (x.gridDigits - k)
  exact ⟨(Nat.le_div_iff_mul_le hstep).mpr hlow, (Nat.div_lt_iff_lt_mul hstep).mpr hhigh⟩

/-- What the search takes has `k` digits too, or is the next power of ten. -/
theorem Picks.digits_bounds {x : Double} {k m : Nat} (hpos : 0 < x.magnitude) (hk : 0 < k)
    (hle : k ≤ 17) (hpicks : x.Picks (x.gridDigits - k) m) : 0 < m ∧ m ≤ 10 ^ k := by
  obtain ⟨hlow, hhigh⟩ := gridFloor_bounds hpos hk hle
  have hleast : 0 < 10 ^ (k - 1) := Nat.pow_pos (by decide)
  have hneighbour := hpicks.neighbour
  omega

/-! ## Completeness -/

/-- A double reads back from its own absolute value. -/
theorem settles_abs_value (x : Double) : Settles x.place (|x.value| * unitsPerOne) := by
  have hunit : (unitsPerOne : ℚ) ≠ 0 := Nat.cast_ne_zero.mpr unitsPerOne_pos.ne'
  rw [abs_value, div_mul_cancel₀ _ hunit]
  exact settles_magnitudeAt x.place

/-- On the way from a number that reads back to the double all numbers read back, and they
are nearer. -/
theorem settles_of_between {x : Double} {v w : ℚ} (hw : Settles x.place (w * unitsPerOne))
    (h : w ≤ v ∧ v ≤ |x.value| ∨ |x.value| ≤ v ∧ v ≤ w) :
    Settles x.place (v * unitsPerOne) ∧ |(|x.value| - v)| ≤ |(|x.value| - w)| ∧
      (|(|x.value| - v)| = |(|x.value| - w)| → v = w) := by
  have hunit : (0 : ℚ) ≤ unitsPerOne := Nat.cast_nonneg _
  have hx := settles_abs_value x
  generalize |x.value| = value at h hx
  rcases h with ⟨hwv, hvx⟩ | ⟨hxv, hvw⟩
  · rw [abs_of_nonneg (sub_nonneg.mpr hvx), abs_of_nonneg (sub_nonneg.mpr (hwv.trans hvx))]
    exact ⟨hw.between hx (mul_le_mul_of_nonneg_right hwv hunit)
      (mul_le_mul_of_nonneg_right hvx hunit), by linarith, fun heq => by linarith⟩
  · rw [abs_of_nonpos (sub_nonpos.mpr hxv), abs_of_nonpos (sub_nonpos.mpr (hxv.trans hvw))]
    exact ⟨hx.between hw (mul_le_mul_of_nonneg_right hxv hunit)
      (mul_le_mul_of_nonneg_right hvw hunit), by linarith, fun heq => by linarith⟩

/-- The absolute value lies between the two neighbouring grid points. -/
theorem gridPoint_bounds (x : Double) (power : Nat) :
    (gridPoint power (x.gridFloor power)).value ≤ |x.value| ∧
      |x.value| ≤ (gridPoint power (x.gridFloor power + 1)).value := by
  obtain ⟨hsplit, hlt⟩ := x.gridFloor_spec power
  have hone : (0 : ℚ) < gridOne := Nat.cast_pos.mpr gridOne_pos
  rw [abs_value_eq_div, value_gridPoint, value_gridPoint, div_le_div_iff_of_pos_right hone,
    div_le_div_iff_of_pos_right hone, Nat.cast_le, Nat.cast_le, Nat.succ_mul]
  omega

/-- **Completeness.** If a decimal of at most `k` digits reads back, then so does a neighbour of
the magnitude on the grid for `k` digits, on the same side and no further away. -/
theorem exists_neighbour {x : Double} (hpos : 0 < x.place) {k : Nat} (hk : 0 < k) (hle : k ≤ 17)
    {e : Decimal} (he : decimalLength e.digits ≤ k)
    (hread : Settles x.place (e.value * unitsPerOne)) :
    ∃ n, (n = x.gridFloor (x.gridDigits - k) ∨ n = x.gridFloor (x.gridDigits - k) + 1) ∧
      x.readsBack gridFactor (n * gridStep (x.gridDigits - k)) = true ∧
      |(|x.value| - (gridPoint (x.gridDigits - k) n).value)| ≤ |(|x.value| - e.value)| ∧
      (|(|x.value| - (gridPoint (x.gridDigits - k) n).value)| = |(|x.value| - e.value)| →
        (gridPoint (x.gridDigits - k) n).value = e.value) := by
  obtain ⟨hfloor, -⟩ := gridFloor_bounds ((magnitude_pos_iff x).mpr hpos) hk hle
  obtain ⟨hlow, hhigh⟩ := x.gridPoint_bounds (x.gridDigits - k)
  rcases Decimal.value_le_or_le (((x.gridDigits - k : Nat) : Int) - gridPower) hk he hfloor with
    hbelow | habove
  · obtain ⟨hsettles, hnear⟩ := settles_of_between hread (.inl ⟨hbelow, hlow⟩)
    exact ⟨_, .inl rfl, (readsBack_gridPoint_iff hpos _ _).mpr hsettles, hnear⟩
  · obtain ⟨hsettles, hnear⟩ := settles_of_between hread (.inr ⟨hhigh, habove⟩)
    exact ⟨_, .inr rfl, (readsBack_gridPoint_iff hpos _ _).mpr hsettles, hnear⟩

/-! ## Seventeen digits -/

/-- A quarter of the step from a double to the next one, in the scale of the search. -/
def quarterStep (x : Double) : Nat := 2 ^ x.scale * gridFactor

theorem quarterStep_pos (x : Double) : 0 < x.quarterStep :=
  Nat.mul_pos (Nat.two_pow_pos _) gridFactor_pos

theorem scaledMagnitude_eq (x : Double) :
    x.scaledMagnitude = 4 * (x.significand * x.quarterStep) := by
  rw [scaledMagnitude, magnitude_eq, quarterStep]
  ring

/-- The interval that reads back reaches half a step up and half a step down, or a quarter
where the steps below are half as wide. -/
theorem interval_spec {x : Double} (hpos : 0 < x.magnitude) :
    (x.intervalLow * gridFactor + 2 * x.quarterStep = x.scaledMagnitude ∨
        x.significand = leadingBit ∧
          x.intervalLow * gridFactor + x.quarterStep = x.scaledMagnitude) ∧
      x.intervalHigh * gridFactor = x.scaledMagnitude + 2 * x.quarterStep := by
  have hpow : Nat.pow 2 x.scale = 2 ^ x.scale := rfl
  have hleast : 2 ^ x.scale ≤ x.magnitude := by
    rw [magnitude_eq] at hpos ⊢
    exact Nat.le_mul_of_pos_left _ (Nat.pos_of_mul_pos_right hpos)
  have hscale {a b : Nat} (h : a + b * 2 ^ x.scale = 4 * x.magnitude) :
      a * gridFactor + b * x.quarterStep = x.scaledMagnitude := by
    rw [scaledMagnitude, ← h, quarterStep]
    ring
  have hhigh : x.intervalHigh * gridFactor = x.scaledMagnitude + 2 * x.quarterStep := by
    rw [intervalHigh, scaledMagnitude, quarterStep, hpow]
    ring
  refine ⟨?_, hhigh⟩
  rw [intervalLow, hpow]
  split
  · next h =>
    have hlow := hscale (a := 4 * x.magnitude - 2 ^ x.scale) (b := 1) (by omega)
    rw [Nat.one_mul] at hlow
    exact .inr ⟨h.1, hlow⟩
  · exact .inl (hscale (by omega))

/-- A point strictly between the ends of the interval reads back. -/
theorem readsBack_of_lt {x : Double} {factor point : Nat} (hlow : x.intervalLow * factor < point)
    (hhigh : point < x.intervalHigh * factor) : x.readsBack factor point = true := by
  rw [readsBack]
  split
  · rw [decide_eq_true hlow.le, decide_eq_true hhigh.le, Bool.and_self]
  · rw [decide_eq_true hlow, decide_eq_true hhigh, Bool.and_self]

/-- **Seventeen digits suffice**: the interval is wider than a step of their grid. -/
theorem isSome_shortestWith_seventeen {x : Double} (hpos : 0 < x.magnitude) :
    (x.shortestWith x.gridDigits 17).isSome := by
  obtain ⟨hmany, hlow, -⟩ := gridDigits_spec hpos
  obtain ⟨hsplit, hrest⟩ := x.gridFloor_spec (x.gridDigits - 17)
  obtain ⟨hdown, hup⟩ := interval_spec hpos
  have hmagnitude := x.scaledMagnitude_eq
  have hquarter := x.quarterStep_pos
  have hsize : x.significand * x.quarterStep < 2 * leadingBit * x.quarterStep :=
    Nat.mul_lt_mul_of_pos_right x.significand_lt hquarter
  rw [show x.gridDigits - 1 = 16 + (x.gridDigits - 17) by omega, gridStep_add] at hlow
  by_contra hnone
  have hnot {m : Nat} (hm : m = x.gridFloor (x.gridDigits - 17) ∨
      m = x.gridFloor (x.gridDigits - 17) + 1) :
      ¬ (x.intervalLow * gridFactor < m * gridStep (x.gridDigits - 17) ∧
        m * gridStep (x.gridDigits - 17) < x.intervalHigh * gridFactor) := fun h =>
    not_readsBack_of_shortestWith (Option.not_isSome_iff_eq_none.mp hnone) hm
      (readsBack_of_lt h.1 h.2)
  have hbelow := hnot (.inl rfl)
  have habove := hnot (.inr rfl)
  rw [Nat.succ_mul] at habove
  generalize x.gridFloor (x.gridDigits - 17) * gridStep (x.gridDigits - 17) = point at *
  generalize gridStep (x.gridDigits - 17) = step at *
  -- both neighbours are outside, so that the step reaches over the whole interval
  rcases hdown with hdown | ⟨hleast, hdown⟩
  · have hwide : 4 * x.quarterStep ≤ step := by omega
    simp only [leadingBit] at hsize
    omega
  · have hwide : 3 * x.quarterStep ≤ step := by omega
    rw [hleast] at hmagnitude
    simp only [leadingBit] at hmagnitude
    omega

/-! ## The search as a whole -/

/-- The search ends with the first count of digits for which it finds anything. -/
theorem exists_shortest {x : Double} (hpos : 0 < x.place) : ∃ k m, 0 < k ∧ k ≤ 17 ∧
    x.shortest = (gridPoint (x.gridDigits - k) m).normalize ∧ x.Picks (x.gridDigits - k) m ∧
    ∀ j, 0 < j → j < k → x.shortestWith x.gridDigits j = none := by
  have hsome : ((List.range' 1 17).findSome? (x.shortestWith x.gridDigits)).isSome := by
    rw [List.findSome?_isSome_iff]
    exact ⟨17, List.mem_range'_1.mpr (by omega),
      isSome_shortestWith_seventeen ((magnitude_pos_iff x).mpr hpos)⟩
  obtain ⟨d, hd⟩ := Option.isSome_iff_exists.mp hsome
  obtain ⟨before, k, after, hsplit, hk, hbefore⟩ := List.findSome?_eq_some_iff.mp hd
  obtain ⟨count, hcount, rfl, hrest⟩ := List.range'_eq_append_iff.mp hsplit
  rw [Nat.mul_one] at hrest
  obtain ⟨rfl, hleft, -⟩ := List.range'_eq_cons_iff.mp hrest.symm
  obtain ⟨m, rfl, hpicks⟩ := picks_of_shortestWith hk
  refine ⟨1 + count, m, by omega, by omega, ?_, hpicks, fun j hj hlt => ?_⟩
  · rw [shortest, hd, Option.getD_some]
  · exact hbefore j (List.mem_range'_1.mpr ⟨hj, hlt⟩)

/-- Nine and ten are never the two neighbours of a double half way between them that both
read back. The interval would have to be so wide that the double is a multiple of the least
one by one digit, and nineteen would divide that digit. -/
theorem not_tie_at_ten {x : Double} (hpos : 0 < x.magnitude) {power : Nat}
    (hfloor : x.gridFloor power = 9)
    (htie : 2 * (x.scaledMagnitude % gridStep power) = gridStep power) :
    ¬ x.readsBack gridFactor (10 * gridStep power) = true := by
  intro hreads
  obtain ⟨hsplit, -⟩ := x.gridFloor_spec power
  obtain ⟨-, hup⟩ := interval_spec hpos
  have hmagnitude := x.scaledMagnitude_eq
  have hquarter := x.quarterStep_pos
  have hten : 10 * gridStep power ≤ x.intervalHigh * gridFactor := by
    rw [readsBack] at hreads
    split at hreads <;>
      rw [Bool.and_eq_true, decide_eq_true_eq, decide_eq_true_eq] at hreads <;> omega
  rw [hfloor] at hsplit
  rw [hmagnitude] at hsplit htie hup
  have hbound : 19 * gridStep power = 8 * (x.significand * x.quarterStep) ∧
      2 * (x.significand * x.quarterStep) ≤ 19 * x.quarterStep := by
    generalize x.significand * x.quarterStep = size at *
    generalize x.quarterStep = quarter at *
    generalize gridStep power = step at *
    omega
  have hdigit : x.significand < 10 := by
    by_contra hmore
    have hless : 20 * x.quarterStep ≤ 2 * (x.significand * x.quarterStep) := by
      rw [← Nat.mul_assoc]
      exact Nat.mul_le_mul_right _ (Nat.mul_le_mul_left 2 (Nat.le_of_not_lt hmore))
    have := hless.trans hbound.2
    generalize x.quarterStep = quarter at *
    omega
  have hscale : x.scale = 0 := by
    rw [significand] at hdigit
    split at hdigit
    · next hzero => rw [scale, hzero]
    · simp only [leadingBit] at hdigit
      omega
  have hequation : 19 * gridStep power = x.significand * (8 * gridFactor) := by
    rw [hbound.1, quarterStep, hscale, pow_zero, Nat.one_mul, Nat.mul_left_comm]
  have hcoprime : Nat.Coprime 19 (8 * gridFactor) := by
    rw [gridFactor_eq]
    exact Nat.Coprime.mul_right (by decide) (Nat.Coprime.pow_right _ (by decide))
  obtain ⟨j, hj⟩ := hcoprime.dvd_of_dvd_mul_right ⟨_, hequation.symm⟩
  have hnone : x.significand = 0 := by omega
  rw [magnitude_eq, hnone, Nat.zero_mul] at hpos
  exact hpos.false

/-- At equal distance the even neighbour is taken, and it is even in normal form too: with `k`
digits left it lost no zeros, since nine and ten are never at equal distance. -/
theorem Picks.even_normalize {x : Double} {k m n : Nat} (hpos : 0 < x.magnitude) (hk : 0 < k)
    (hle : k ≤ 17) (hpicks : x.Picks (x.gridDigits - k) m)
    (hfew : k ≤ decimalLength (gridPoint (x.gridDigits - k) m).normalize.digits)
    (hn : n = x.gridFloor (x.gridDigits - k) ∨ n = x.gridFloor (x.gridDigits - k) + 1)
    (hback : x.readsBack gridFactor (n * gridStep (x.gridDigits - k)) = true) (hne : n ≠ m)
    (htie : |(|x.value| - (gridPoint (x.gridDigits - k) m).value)| =
      |(|x.value| - (gridPoint (x.gridDigits - k) n).value)|) :
    (gridPoint (x.gridDigits - k) m).normalize.digits % 2 = 0 := by
  obtain ⟨hmpos, hmle⟩ := hpicks.digits_bounds hpos hk hle
  rcases Decimal.digits_normalize hmpos hk hmle hfew with hnormal | ⟨rfl, hten⟩
  · rw [hnormal]
    exact (hpicks.nearer n hn hback).2 hne htie
  · obtain rfl : m = 10 := hten
    have hnine : x.gridFloor (x.gridDigits - 1) = 9 := by
      have := hpicks.neighbour
      have := (gridFloor_bounds hpos hk hle).2
      omega
    obtain rfl : n = 9 := by omega
    obtain ⟨hless, hmore⟩ := x.abs_sub_gridFloor_lt_iff (x.gridDigits - 1)
    rw [hnine, ← htie] at hless hmore
    refine absurd hpicks.readsBack (not_tie_at_ten hpos hnine ?_)
    exact le_antisymm (not_lt.mp fun hlt => (hmore.mpr hlt).false)
      (not_lt.mp fun hlt => (hless.mpr hlt).false)

end Double

namespace Decimal

/-- What `Number::toString` asks of a decimal for a number: it reads back, and none with fewer
digits does. -/
structure IsShortest (d : Decimal) (x : Double) : Prop where
  readsBack : Double.IsNearest x.isNegative d.value x
  fewest : ∀ e : Decimal, Double.IsNearest x.isNegative e.value x →
    decimalLength d.digits ≤ decimalLength e.digits

/-- What it recommends besides: of the decimals with so few digits this is the nearest one, and
the even one at equal distance. -/
structure IsClosestShortest (d : Decimal) (x : Double) : Prop extends IsShortest d x where
  closest : ∀ e : Decimal, Double.IsNearest x.isNegative e.value x →
    decimalLength e.digits ≤ decimalLength d.digits →
      |(|x.value| - d.value)| ≤ |(|x.value| - e.value)|
  even : ∀ e : Decimal, Double.IsNearest x.isNegative e.value x →
    decimalLength e.digits ≤ decimalLength d.digits → e.value ≠ d.value →
      |(|x.value| - d.value)| = |(|x.value| - e.value)| → d.digits % 2 = 0

end Decimal

namespace Double

section Search

variable {x : Double} (hpos : 0 < x.place)
include hpos

/-- A decimal of value zero does not read back. -/
theorem digits_ne_zero_of_settles {e : Decimal} (hread : Settles x.place (e.value * unitsPerOne)) :
    e.digits ≠ 0 := by
  intro hzero
  have hlow := hread.low
  have hless : (0 : ℚ) < magnitudeAt x.place :=
    Nat.cast_pos.mpr (magnitude_eq_magnitudeAt x ▸ (magnitude_pos_iff x).mpr hpos)
  have hbelow : (0 : ℚ) ≤ magnitudeAt (x.place - 1) := Nat.cast_nonneg _
  rw [Decimal.value, hzero, Nat.cast_zero, zero_mul, zero_mul, mul_zero] at hlow
  linarith

/-- Where the search finds nothing, no decimal with so few digits reads back. -/
theorem le_decimalLength_of_settles {k : Nat} (hle : k ≤ 17)
    (hfirst : ∀ j, 0 < j → j < k → x.shortestWith x.gridDigits j = none) {e : Decimal}
    (hread : Settles x.place (e.value * unitsPerOne)) : k ≤ decimalLength e.digits := by
  by_contra hfew
  have hne := digits_ne_zero_of_settles hpos hread
  have hlength : 0 < decimalLength e.digits := by
    refine Nat.pos_of_ne_zero fun hzero => hne ?_
    have hlt := decimalLength_le_iff.mp hzero.le
    omega
  obtain ⟨n, hn, hback, -⟩ := exists_neighbour hpos hlength (by omega) le_rfl hread
  exact not_readsBack_of_shortestWith (hfirst _ hlength (by omega)) hn hback

end Search

section Finite

variable {x : Double} (hfinite : x.isFinite = true) (hpos : 0 < x.place)
include hfinite hpos

/-- A decimal reads back exactly if it settles the place of the double. -/
theorem isNearest_iff_settles (q : ℚ) :
    IsNearest x.isNegative q x ↔ Settles x.place (q * unitsPerOne) := by
  refine ⟨fun h => h.settles hfinite hpos, fun h => ?_⟩
  have hnearest := h.isNearest ((isFinite_iff_place x).mp hfinite) x.isNegative
  rwa [assemble_place] at hnearest

/-- **The shortest decimal** of a finite double other than zero has as few digits as can be,
is the nearest one with so few, and the even one at equal distance. -/
theorem isClosestShortest_shortest : x.shortest.IsClosestShortest x := by
  obtain ⟨k, m, hk, hle, hshort, hpicks, hfirst⟩ := exists_shortest hpos
  have hmagnitude := (magnitude_pos_iff x).mpr hpos
  obtain ⟨hmpos, hmle⟩ := hpicks.digits_bounds hmagnitude hk hle
  have hvalue : x.shortest.value = (gridPoint (x.gridDigits - k) m).value := by
    rw [hshort, Decimal.value_normalize]
  have hfew : decimalLength x.shortest.digits ≤ k := by
    rw [hshort]
    exact Decimal.decimalLength_normalize_le hmpos hk hmle
  have hmin {e : Decimal} (hread : Settles x.place (e.value * unitsPerOne)) :
      k ≤ decimalLength e.digits := le_decimalLength_of_settles hpos hle hfirst hread
  have hreads : Settles x.place (x.shortest.value * unitsPerOne) := by
    rw [hvalue]
    exact (readsBack_gridPoint_iff hpos _ _).mp hpicks.readsBack
  refine ⟨⟨(isNearest_iff_settles hfinite hpos _).mpr hreads, ?_⟩, ?_, ?_⟩
  · intro e he
    exact hfew.trans (hmin (he.settles hfinite hpos))
  · intro e he hlength
    obtain ⟨n, hn, hback, hnear, -⟩ :=
      exists_neighbour hpos hk hle (hlength.trans hfew) (he.settles hfinite hpos)
    rw [hvalue]
    exact (hpicks.nearer n hn hback).1.trans hnear
  · intro e he hlength hne heq
    obtain ⟨n, hn, hback, hnear, hsame⟩ :=
      exists_neighbour hpos hk hle (hlength.trans hfew) (he.settles hfinite hpos)
    rw [hvalue] at hne heq
    -- the neighbour on that side is no further away than `e`, so it is at equal distance too
    have htie := le_antisymm (hpicks.nearer n hn hback).1 (hnear.trans heq.ge)
    have hother : n ≠ m := by
      rintro rfl
      exact hne (hsame heq).symm
    have hlen := hmin hreads
    rw [hshort] at hlen ⊢
    exact hpicks.even_normalize hmagnitude hk hle hlen hn hback hother htie

end Finite

end Double

/-! ## Printers -/

namespace Printer

/-- For a number the printer writes a decimal: the sign, and what the layout makes of the
digits, which are some of the shortest that read back. -/
structure Writes (printer : Printer) (x : Double) (d : Decimal) : Prop extends d.IsShortest x where
  layout : printer.ofFinite x = x.signChars ++ d.toChars

/-- A printer that writes all finite numbers other than zero as `Number::toString` does. -/
def PrintsShortest (printer : Printer) : Prop :=
  ∀ x : Double, x.isFinite = true → 0 < x.place → ∃ d, printer.Writes x d

theorem printsShortest_standard : standard.PrintsShortest := fun x hfinite hpos =>
  ⟨x.shortest, (Double.isClosestShortest_shortest hfinite hpos).toIsShortest, rfl⟩

end Printer

end Ecma
