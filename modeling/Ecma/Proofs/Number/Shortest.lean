import Mathlib.Tactic.FieldSimp
import Ecma.Proofs.Number.Nearest

/-!
# The search for the shortest decimal, grid by grid

The two ends between which the search looks for a decimal are the points half way from a
double to its neighbours (`intervalLow_eq`, `intervalHigh_eq`). A point between them, or on
an end if the significand is even, therefore settles the place of the double, and no other
one does (`readsBack_iff`).

With a given count of digits the candidates are the multiples of a power of ten, and only
the two next to the magnitude are looked at. What is taken is one that reads back, the
nearer one if both do, and the even one at equal distance (`picks_of_shortestWith`).
-/

namespace Ecma

namespace Double

/-! ## The interval that reads back -/

theorem intervalLow_eq {x : Double} (h : 0 < x.place) :
    x.intervalLow = 2 * (magnitudeAt (x.place - 1) + magnitudeAt x.place) := by
  have hstep := magnitudeAt_succ (x.place - 1)
  rw [Nat.sub_add_cancel h] at hstep
  rw [intervalLow, magnitude_eq_magnitudeAt, significand_eq, scale_eq_scaleAt]
  split
  · next hleast =>
    -- just above a power of two the step down is half as wide
    have hscale : scaleAt x.place = scaleAt (x.place - 1) + 1 := by
      simp only [scaleAt, leadingBit] at *
      omega
    have hpow : Nat.pow 2 (scaleAt x.place) = 2 * 2 ^ scaleAt (x.place - 1) := by
      rw [hscale]
      exact Nat.pow_succ'
    rw [hpow]
    omega
  · next hleast =>
    have hscale : scaleAt (x.place - 1) = scaleAt x.place := by
      simp only [scaleAt, leadingBit] at *
      omega
    rw [hscale] at hstep
    change 4 * magnitudeAt x.place - 2 * 2 ^ scaleAt x.place = _
    omega

theorem intervalHigh_eq (x : Double) :
    x.intervalHigh = 2 * (magnitudeAt x.place + magnitudeAt (x.place + 1)) := by
  rw [intervalHigh, magnitude_eq_magnitudeAt, scale_eq_scaleAt, magnitudeAt_succ]
  change 4 * magnitudeAt x.place + 2 * 2 ^ scaleAt x.place = _
  omega

/-- A quotient of units settles a place. -/
theorem settles_div_iff {l num den : Nat} (hden : 0 < den) :
    Settles l (num / den) ↔
      ((magnitudeAt (l - 1) + magnitudeAt l) * den ≤ 2 * num ∧
        2 * num ≤ (magnitudeAt l + magnitudeAt (l + 1)) * den) ∧
      ((magnitudeAt (l - 1) + magnitudeAt l) * den = 2 * num ∨
        2 * num = (magnitudeAt l + magnitudeAt (l + 1)) * den → l % 2 = 0) := by
  have hpos : (0 : ℚ) < den := Nat.cast_pos.mpr hden
  have hdouble : (2 * (num / den) : ℚ) = (2 * num : ℕ) / den := by
    push_cast
    ring
  have hle (a b : Nat) : (a + b : ℚ) ≤ 2 * (num / den) ↔ (a + b) * den ≤ 2 * num := by
    rw [hdouble, le_div_iff₀ hpos]
    exact_mod_cast Iff.rfl
  have hge (a b : Nat) : 2 * (num / den) ≤ (a + b : ℚ) ↔ 2 * num ≤ (a + b) * den := by
    rw [hdouble, div_le_iff₀ hpos]
    exact_mod_cast Iff.rfl
  have heq (a b : Nat) : (a + b : ℚ) = 2 * (num / den) ↔ (a + b) * den = 2 * num := by
    rw [hdouble, eq_div_iff hpos.ne']
    exact_mod_cast Iff.rfl
  constructor
  · rintro ⟨hlow, hhigh, heven_low, heven_high⟩
    refine ⟨⟨(hle _ _).mp hlow, (hge _ _).mp hhigh⟩, fun hend => ?_⟩
    rcases hend with hend | hend
    · exact heven_low ((heq _ _).mpr hend)
    · exact heven_high ((heq _ _).mpr hend.symm).symm
  · rintro ⟨⟨hlow, hhigh⟩, heven⟩
    exact ⟨(hle _ _).mpr hlow, (hge _ _).mpr hhigh, fun h => heven (.inl ((heq _ _).mp h)),
      fun h => heven (.inr ((heq _ _).mp h.symm).symm)⟩

/-- **A point reads back** exactly if it settles the place of the double. -/
theorem readsBack_iff {x : Double} (hpos : 0 < x.place) {factor point : Nat}
    (hfactor : 0 < factor) :
    x.readsBack factor point = true ↔ Settles x.place (point / (4 * factor : Nat)) := by
  have hquarter (a : Nat) : a * (4 * factor) = 2 * (2 * a * factor) := by ring
  rw [settles_div_iff (by omega), readsBack, significand_mod_two, intervalLow_eq hpos,
    intervalHigh_eq, hquarter, hquarter]
  split <;> rw [Bool.and_eq_true, decide_eq_true_eq, decide_eq_true_eq] <;> omega

/-- What lies between two numbers that settle a place settles it. -/
theorem Settles.between {l : Nat} {u v w : ℚ} (hu : Settles l u) (hw : Settles l w) (huv : u ≤ v)
    (hvw : v ≤ w) : Settles l v := by
  have hlow := hu.low
  have hhigh := hw.high
  exact ⟨by linarith, by linarith, fun heq => hu.even_low (by linarith),
    fun heq => hw.even_high (by linarith)⟩

/-- The magnitude at a place settles it. -/
theorem settles_magnitudeAt (l : Nat) : Settles l (magnitudeAt l) := by
  have hstep := magnitudeAt_succ l
  have hpow : 0 < 2 ^ scaleAt l := Nat.two_pow_pos _
  have hbelow : magnitudeAt (l - 1) < magnitudeAt l ∨ l = 0 := by
    rcases Nat.eq_zero_or_pos l with hzero | hpos
    · exact .inr hzero
    · exact .inl (magnitudeAt_strictMono (by omega))
  have hsettles : Settles l ((magnitudeAt l : Nat) / (1 : Nat)) := by
    refine (settles_div_iff Nat.one_pos).mpr ⟨⟨?_, by omega⟩, ?_⟩
    · rcases hbelow with hlt | rfl
      · omega
      · rw [Nat.zero_sub]
        omega
    · rintro (heq | heq)
      · rcases hbelow with hlt | rfl
        · omega
        · rfl
      · omega
  rwa [Nat.cast_one, div_one] at hsettles

/-! ## Grids of decimals -/

/-- A multiple of `10 ^ power` on the finest grid, where `10 ^ gridPower` is one. -/
def gridPoint (power n : Nat) : Decimal := ⟨n, (power : Int) - gridPower⟩

/-- The distance of neighbouring multiples, in quarter units multiplied by `gridFactor`. -/
def gridStep (power : Nat) : Nat := Nat.pow 10 power * quarterUnitsPerOne

/-- The greatest multiple that is not above the magnitude. -/
def gridFloor (x : Double) (power : Nat) : Nat := x.scaledMagnitude / gridStep power

/-- What one is in quarter units multiplied by `gridFactor`. -/
def gridOne : Nat := quarterUnitsPerOne * gridFactor

theorem gridFactor_eq : gridFactor = 10 ^ gridPower := by
  unfold gridFactor
  generalize gridPower = p
  rfl

theorem gridFactor_pos : 0 < gridFactor := by
  rw [gridFactor_eq]
  exact Nat.pow_pos (by decide)

theorem quarterUnitsPerOne_pos : 0 < quarterUnitsPerOne := Nat.mul_pos (by decide) unitsPerOne_pos

theorem gridStep_pos (power : Nat) : 0 < gridStep power :=
  Nat.mul_pos (Nat.pow_pos (by decide)) quarterUnitsPerOne_pos

theorem gridOne_pos : 0 < gridOne := Nat.mul_pos quarterUnitsPerOne_pos gridFactor_pos

theorem abs_value_eq_div (x : Double) : |x.value| = x.scaledMagnitude / gridOne := by
  have hunit : (0 : ℚ) < unitsPerOne := Nat.cast_pos.mpr unitsPerOne_pos
  have hfactor : (0 : ℚ) < gridFactor := Nat.cast_pos.mpr gridFactor_pos
  rw [abs_value, ← magnitude_eq_magnitudeAt, scaledMagnitude, gridOne, quarterUnitsPerOne]
  push_cast
  field_simp

theorem value_gridPoint (power n : Nat) :
    (gridPoint power n).value = (n * gridStep power : Nat) / gridOne := by
  have hquarter : (0 : ℚ) < quarterUnitsPerOne := Nat.cast_pos.mpr quarterUnitsPerOne_pos
  have hten : (10 : ℚ) ^ gridPower ≠ 0 := pow_ne_zero _ (by norm_num)
  have hpow : Nat.pow 10 power = 10 ^ power := rfl
  rw [gridPoint, Decimal.value, zpow_sub₀ (by norm_num), zpow_natCast, zpow_natCast, gridStep,
    gridOne, gridFactor_eq, hpow]
  push_cast
  field_simp

/-- A grid point reads back exactly if it settles the place of the double. -/
theorem readsBack_gridPoint_iff {x : Double} (hpos : 0 < x.place) (power n : Nat) :
    x.readsBack gridFactor (n * gridStep power) = true ↔
      Settles x.place ((gridPoint power n).value * unitsPerOne) := by
  have hunit : (0 : ℚ) < unitsPerOne := Nat.cast_pos.mpr unitsPerOne_pos
  have hpoint : (gridPoint power n).value * unitsPerOne =
      (n * gridStep power : Nat) / (4 * gridFactor : Nat) := by
    rw [value_gridPoint, gridOne, quarterUnitsPerOne]
    push_cast
    generalize (unitsPerOne : ℚ) = unit at hunit
    rw [div_mul_eq_mul_div, mul_right_comm 4 unit, mul_div_mul_right _ _ hunit.ne']
  rw [readsBack_iff hpos gridFactor_pos, hpoint]

/-- The magnitude lies between two neighbouring grid points. -/
theorem gridFloor_spec (x : Double) (power : Nat) :
    x.gridFloor power * gridStep power + x.scaledMagnitude % gridStep power =
        x.scaledMagnitude ∧
      x.scaledMagnitude % gridStep power < gridStep power :=
  ⟨Nat.div_add_mod' _ _, Nat.mod_lt _ (gridStep_pos power)⟩

/-- How far the magnitude is from the grid point below it and from the one above it. -/
theorem abs_sub_gridFloor (x : Double) (power : Nat) :
    |(|x.value| - (gridPoint power (x.gridFloor power)).value)| =
        (x.scaledMagnitude % gridStep power : Nat) / gridOne ∧
      |(|x.value| - (gridPoint power (x.gridFloor power + 1)).value)| =
        (gridStep power - x.scaledMagnitude % gridStep power : Nat) / gridOne := by
  obtain ⟨hsplit, hlt⟩ := x.gridFloor_spec power
  have hone : (0 : ℚ) < gridOne := Nat.cast_pos.mpr gridOne_pos
  rw [abs_value_eq_div, value_gridPoint, value_gridPoint, ← sub_div, ← sub_div, abs_div, abs_div,
    abs_of_pos hone]
  generalize x.scaledMagnitude % gridStep power = rest at hsplit hlt
  rw [← hsplit, Nat.add_mul, Nat.one_mul, Nat.cast_sub hlt.le]
  generalize x.gridFloor power * gridStep power = below
  have hless : (rest : ℚ) ≤ gridStep power := Nat.cast_le.mpr hlt.le
  push_cast
  constructor
  · rw [add_sub_cancel_left, abs_of_nonneg (Nat.cast_nonneg rest)]
  · rw [add_sub_add_left_eq_sub, abs_sub_comm, abs_of_nonneg (sub_nonneg.mpr hless)]

/-- Which of the two is nearer depends on what is left above the one below. -/
theorem abs_sub_gridFloor_lt_iff (x : Double) (power : Nat) :
    (|(|x.value| - (gridPoint power (x.gridFloor power)).value)| <
        |(|x.value| - (gridPoint power (x.gridFloor power + 1)).value)| ↔
          2 * (x.scaledMagnitude % gridStep power) < gridStep power) ∧
      (|(|x.value| - (gridPoint power (x.gridFloor power + 1)).value)| <
        |(|x.value| - (gridPoint power (x.gridFloor power)).value)| ↔
          gridStep power < 2 * (x.scaledMagnitude % gridStep power)) := by
  obtain ⟨hbelow, habove⟩ := x.abs_sub_gridFloor power
  obtain ⟨-, hlt⟩ := x.gridFloor_spec power
  have hone : (0 : ℚ) < gridOne := Nat.cast_pos.mpr gridOne_pos
  rw [hbelow, habove, div_lt_div_iff_of_pos_right hone, div_lt_div_iff_of_pos_right hone,
    Nat.cast_lt, Nat.cast_lt]
  constructor <;> omega

/-! ## The search -/

/-- A grid point that the search may take: a neighbour of the magnitude that reads back. If
both neighbours do, it is the nearer one, and the even one at equal distance. -/
structure Picks (x : Double) (power m : Nat) : Prop where
  neighbour : m = x.gridFloor power ∨ m = x.gridFloor power + 1
  readsBack : x.readsBack gridFactor (m * gridStep power) = true
  nearer : ∀ n, n = x.gridFloor power ∨ n = x.gridFloor power + 1 →
    x.readsBack gridFactor (n * gridStep power) = true →
      |(|x.value| - (gridPoint power m).value)| ≤ |(|x.value| - (gridPoint power n).value)| ∧
        (n ≠ m → |(|x.value| - (gridPoint power m).value)| =
          |(|x.value| - (gridPoint power n).value)| → m % 2 = 0)

/-- Of the two neighbours only the other one has to be compared with. -/
theorem picks_of_other {x : Double} {power m other : Nat}
    (hm : m = x.gridFloor power ∧ other = x.gridFloor power + 1 ∨
      m = x.gridFloor power + 1 ∧ other = x.gridFloor power)
    (hreads : x.readsBack gridFactor (m * gridStep power) = true)
    (hother : x.readsBack gridFactor (other * gridStep power) = true →
      |(|x.value| - (gridPoint power m).value)| ≤ |(|x.value| - (gridPoint power other).value)| ∧
        (|(|x.value| - (gridPoint power m).value)| =
          |(|x.value| - (gridPoint power other).value)| → m % 2 = 0)) : x.Picks power m := by
  refine ⟨by omega, hreads, fun n hn hback => ?_⟩
  by_cases hsame : n = m
  · exact ⟨by rw [hsame], fun hne => absurd hsame hne⟩
  · obtain rfl : n = other := by omega
    obtain ⟨hle, heven⟩ := hother hback
    exact ⟨hle, fun _ => heven⟩

/-- The search, grid by grid. -/
theorem shortestWith_eq (x : Double) (n k : Nat) :
    x.shortestWith n k =
      if x.readsBack gridFactor (x.gridFloor (n - k) * gridStep (n - k)) &&
          x.readsBack gridFactor ((x.gridFloor (n - k) + 1) * gridStep (n - k)) then
        if 2 * (x.scaledMagnitude % gridStep (n - k)) < gridStep (n - k) then
          some (gridPoint (n - k) (x.gridFloor (n - k)))
        else if gridStep (n - k) < 2 * (x.scaledMagnitude % gridStep (n - k)) then
          some (gridPoint (n - k) (x.gridFloor (n - k) + 1))
        else
          some (gridPoint (n - k) (if x.gridFloor (n - k) % 2 = 0 then x.gridFloor (n - k)
            else x.gridFloor (n - k) + 1))
      else if x.readsBack gridFactor (x.gridFloor (n - k) * gridStep (n - k)) then
        some (gridPoint (n - k) (x.gridFloor (n - k)))
      else if x.readsBack gridFactor ((x.gridFloor (n - k) + 1) * gridStep (n - k)) then
        some (gridPoint (n - k) (x.gridFloor (n - k) + 1))
      else none := rfl

/-- What the search finds with some count of digits. -/
theorem picks_of_shortestWith {x : Double} {n k : Nat} {d : Decimal}
    (h : x.shortestWith n k = some d) : ∃ m, d = gridPoint (n - k) m ∧ x.Picks (n - k) m := by
  obtain ⟨hless, hmore⟩ := x.abs_sub_gridFloor_lt_iff (n - k)
  rw [shortestWith_eq] at h
  generalize n - k = power at h hless hmore
  split at h
  · next hboth =>
    obtain ⟨hbelow, habove⟩ := Bool.and_eq_true_iff.mp hboth
    split at h
    · next hrest =>
      have hlt := hless.mpr hrest
      exact ⟨_, (Option.some.inj h).symm, picks_of_other (.inl ⟨rfl, rfl⟩) hbelow
        fun _ => ⟨hlt.le, fun heq => absurd heq hlt.ne⟩⟩
    · next hnot =>
      split at h
      · next hrest =>
        have hlt := hmore.mpr hrest
        exact ⟨_, (Option.some.inj h).symm, picks_of_other (.inr ⟨rfl, rfl⟩) habove
          fun _ => ⟨hlt.le, fun heq => absurd heq hlt.ne⟩⟩
      · next hnot' =>
        -- at equal distance the even one is taken
        have hsame := le_antisymm (not_lt.mp fun hlt => hnot' (hmore.mp hlt))
          (not_lt.mp fun hlt => hnot (hless.mp hlt))
        split at h
        · next heven =>
          exact ⟨_, (Option.some.inj h).symm, picks_of_other (.inl ⟨rfl, rfl⟩) hbelow
            fun _ => ⟨hsame.le, fun _ => heven⟩⟩
        · next hodd =>
          exact ⟨_, (Option.some.inj h).symm, picks_of_other (.inr ⟨rfl, rfl⟩) habove
            fun _ => ⟨hsame.ge, fun _ => by omega⟩⟩
  · next hnot =>
    split at h
    · next hbelow =>
      refine ⟨_, (Option.some.inj h).symm, picks_of_other (.inl ⟨rfl, rfl⟩) hbelow
        fun habove => absurd ?_ hnot⟩
      rw [hbelow, habove]
      rfl
    · next hnone =>
      split at h
      · next habove =>
        exact ⟨_, (Option.some.inj h).symm, picks_of_other (.inr ⟨rfl, rfl⟩) habove
          fun hbelow => absurd hbelow hnone⟩
      · cases h

/-- What it means that the search finds nothing. -/
theorem not_readsBack_of_shortestWith {x : Double} {n k : Nat} (h : x.shortestWith n k = none)
    {m : Nat} (hm : m = x.gridFloor (n - k) ∨ m = x.gridFloor (n - k) + 1) :
    ¬ x.readsBack gridFactor (m * gridStep (n - k)) = true := by
  rw [shortestWith_eq] at h
  split at h
  · split at h
    · cases h
    · split at h <;> cases h
  · split at h
    · cases h
    · next hbelow =>
      split at h
      · cases h
      · next habove =>
        rcases hm with rfl | rfl
        · exact hbelow
        · exact habove

end Double

end Ecma
