import Ecma.Operation.Conversion
import Ecma.Proofs.Property.CanonicalKey

/-!
# Numbers as property keys

An integral number within the integer keys becomes a key without being written, and an
integer of up to 31 bits is written without the search for the shortest decimal. Neither
shortcut can be told from the long way.

Below `2 ^ 53` neighbouring doubles are at most one apart, so an integer that reads back as
such a double is the double itself (`Settles.eq_of_nat`). A decimal with a fraction reads
back as well, but a shortest one has none: it would need more digits than the integer
(`exponent_nonneg`). So whatever printer writes shortest decimals, what it writes is the
number, digit by digit (`toChars_of_isShortest`).
-/

namespace Ecma

namespace Literal

/-- Zeros behind the digits of a positive number. -/
theorem toDigits_mul_pow {n : Nat} (hn : 0 < n) (k : Nat) :
    Nat.toDigits 10 (n * 10 ^ k) = Nat.toDigits 10 n ++ Decimal.zeros k := by
  have hdigits := (digits_toDigits n).append_zeros k
  refine (PlainNumeral.eq_toDigits ⟨hdigits, fun hhead => ?_⟩).symm
  rw [List.head?_append_of_ne_nil _ (digits_toDigits n).ne_nil] at hhead
  exact absurd (eq_zero_of_head?_toDigits hhead) hn.ne'

end Literal

namespace Decimal

/-! ## Decimals that are integers -/

/-- A decimal with a natural exponent is a natural number. -/
theorem value_of_natCast {d : Decimal} {e : Nat} (he : d.exponent = e) :
    d.value = (d.digits * 10 ^ e : Nat) := by
  rw [value, he, zpow_natCast]
  push_cast
  rfl

/-- **Integers** of at most twenty-one places are written as plain numerals. -/
theorem toChars_of_natCast {d : Decimal} {e m : Nat} (he : d.exponent = e) (hm : 0 < m)
    (hvalue : d.digits * 10 ^ e = m) (hplaces : m < 10 ^ 21) : d.toChars = Nat.toDigits 10 m := by
  have hpos : 0 < d.digits := Nat.pos_of_mul_pos_right (hvalue ▸ hm)
  have hlength : (Nat.toDigits 10 m).length ≤ 21 :=
    (Nat.length_toDigits_le_iff (by decide) (by decide)).mpr hplaces
  rw [← hvalue, Literal.toDigits_mul_pow hpos, List.length_append, zeros,
    List.length_replicate] at hlength
  have hpoint : ((Nat.toDigits 10 d.digits).length : Int) ≤
        (Nat.toDigits 10 d.digits).length + d.exponent ∧
      (Nat.toDigits 10 d.digits).length + d.exponent ≤ maxIntegerPlaces := by
    rw [he, maxIntegerPlaces]
    omega
  have hzeros : ((Nat.toDigits 10 d.digits).length + d.exponent -
      ((Nat.toDigits 10 d.digits).length : Int)).toNat = e := by omega
  rw [toChars]
  unfold layout
  dsimp only
  rw [if_pos hpoint, hzeros, ← Literal.toDigits_mul_pow hpos, hvalue]

end Decimal

namespace Double

/-! ## Integers among the doubles -/

/-- Below `2 ^ 53` the step to the next double is at most one. -/
theorem two_pow_scale_le {x : Double} (h : x.magnitude < 2 ^ 53 * unitsPerOne) :
    2 ^ x.scale ≤ unitsPerOne := by
  rcases Nat.lt_or_ge x.exponentField unitExponent with hlt | hge
  · by_cases hzero : x.exponentField = 0
    · rw [scale, hzero]
      exact unitsPerOne_pos
    · rw [← two_pow_scale_of_lt hlt hzero]
      exact Nat.le_mul_of_pos_right _ (Nat.two_pow_pos _)
  · -- a significand with its leading bit leaves room for no scale beyond the unit
    have hlead : leadingBit ≤ x.significand := by
      rw [significand, if_neg (by rw [unitExponent] at hge; omega)]
      exact Nat.le_add_right _ _
    rw [magnitude_eq, two_pow_scale_of_le hge, Nat.mul_left_comm, Nat.mul_comm unitsPerOne] at h
    have hbound := Nat.lt_of_mul_lt_mul_right h
    have hscale : 2 ^ (x.exponentField - unitExponent) < 2 := by
      refine Nat.lt_of_mul_lt_mul_left (a := leadingBit) ?_
      calc leadingBit * 2 ^ (x.exponentField - unitExponent) ≤
            x.significand * 2 ^ (x.exponentField - unitExponent) := Nat.mul_le_mul_right _ hlead
        _ < leadingBit * 2 := hbound
    rw [two_pow_scale_of_le hge, show 2 ^ (x.exponentField - unitExponent) = 1 by
      have := Nat.two_pow_pos (x.exponentField - unitExponent)
      omega, Nat.mul_one]

/-- What reads back as a double that is an integer below `2 ^ 53` is at most a half away. -/
theorem Settles.near_integer {x : Double} {m : Nat} {q : ℚ} (hx : x.magnitude = m * unitsPerOne)
    (hm : m < 2 ^ 53) (h : Settles x.place (q * unitsPerOne)) :
    (2 * m - 1 : ℚ) ≤ 2 * q ∧ 2 * q ≤ 2 * m + 1 := by
  have hunit : (0 : ℚ) < unitsPerOne := Nat.cast_pos.mpr unitsPerOne_pos
  have hstep : 2 ^ scaleAt x.place ≤ unitsPerOne := by
    rw [← scale_eq_scaleAt]
    refine two_pow_scale_le ?_
    rw [hx]
    exact Nat.mul_lt_mul_of_pos_right hm unitsPerOne_pos
  have habove := magnitudeAt_succ x.place
  have hbelow : magnitudeAt x.place ≤ magnitudeAt (x.place - 1) + 2 ^ scaleAt x.place := by
    rcases Nat.eq_zero_or_pos x.place with hzero | hpos
    · rw [hzero]
      exact Nat.le_add_right _ _
    · have hnext := magnitudeAt_succ (x.place - 1)
      rw [Nat.sub_add_cancel hpos] at hnext
      rw [hnext]
      refine Nat.add_le_add_left (Nat.pow_le_pow_right (by decide) ?_) _
      exact Nat.sub_le_sub_right (Nat.div_le_div_right (Nat.sub_le _ _)) 1
  have hvalue : (magnitudeAt x.place : ℚ) = m * unitsPerOne := by
    rw [← magnitude_eq_magnitudeAt, hx, Nat.cast_mul]
  have hprevious : (m * unitsPerOne : ℚ) ≤ magnitudeAt (x.place - 1) + unitsPerOne := by
    rw [← hvalue]
    exact_mod_cast hbelow.trans (Nat.add_le_add_left hstep _)
  have hnext : (magnitudeAt (x.place + 1) : ℚ) ≤ m * unitsPerOne + unitsPerOne := by
    rw [← hvalue]
    exact_mod_cast habove.le.trans (Nat.add_le_add_left hstep _)
  have hlow := h.low
  have hhigh := h.high
  rw [hvalue] at hlow hhigh
  exact ⟨le_of_mul_le_mul_right (by linarith) hunit, le_of_mul_le_mul_right (by linarith) hunit⟩

/-- **Only one integer** reads back as a double that is an integer below `2 ^ 53`. -/
theorem Settles.eq_of_nat {x : Double} {m n : Nat} (hx : x.magnitude = m * unitsPerOne)
    (hm : m < 2 ^ 53) (h : Settles x.place (n * unitsPerOne)) : n = m := by
  obtain ⟨hlow, hhigh⟩ := h.near_integer hx hm
  have hlow : 2 * m ≤ 2 * n + 1 := by
    have hcast : (2 * m : ℚ) ≤ 2 * n + 1 := by linarith
    exact_mod_cast hcast
  have hhigh : 2 * n ≤ 2 * m + 1 := by exact_mod_cast hhigh
  omega

/-! ## Integers by the general rule -/

/-- The double before one is not far from it. -/
theorem magnitudeAt_before_one {l : Nat} (h : magnitudeAt l = unitsPerOne) :
    4 * unitsPerOne < 5 * magnitudeAt (l - 1) := by
  have hone : magnitudeAt (1023 * leadingBit) = unitsPerOne := by decide +kernel
  obtain rfl := magnitudeAt_strictMono.injective (h.trans hone.symm)
  decide +kernel

section Integral

variable {x : Double} {m : Nat} (hfinite : x.isFinite = true)
  (hx : x.magnitude = m * unitsPerOne) (hpos : 0 < m)
include hfinite hx hpos

omit hfinite in
theorem place_pos_of_magnitude : 0 < x.place := by
  rw [← magnitude_pos_iff, hx]
  exact Nat.mul_pos hpos unitsPerOne_pos

/-- A decimal that is the integer reads back. -/
theorem isNearest_of_value_eq {d : Decimal} (hd : d.value = m) :
    IsNearest x.isNegative d.value x := by
  rw [isNearest_iff_settles hfinite (place_pos_of_magnitude hx hpos), hd, ← Nat.cast_mul, ← hx,
    magnitude_eq_magnitudeAt]
  exact settles_magnitudeAt x.place

/-- A shortest decimal with a fraction has no more digits than the integer, and so it is below
the leading place of the integer. Then the integer is a power of ten, and one digit is
enough. -/
theorem decimalLength_le_one (hm : m < 2 ^ 53) {d : Decimal} (hd : d.IsShortest x)
    (hneg : d.exponent < 0) : decimalLength d.digits ≤ 1 := by
  have hsettles := hd.readsBack.settles hfinite (place_pos_of_magnitude hx hpos)
  obtain ⟨hnear, -⟩ := hsettles.near_integer hx hm
  obtain ⟨hlow, -⟩ := Decimal.decimalLength_spec hpos.ne'
  have hfew : decimalLength d.digits ≤ decimalLength m := by
    have hwhole : (⟨m, 0⟩ : Decimal).value = m := by rw [Decimal.value, zpow_zero, mul_one]
    exact hd.fewest ⟨m, 0⟩ (isNearest_of_value_eq hfinite hx hpos hwhole)
  have hbelow : d.value < (10 ^ (decimalLength m - 1) : Nat) := by
    have hne := digits_ne_zero_of_settles (place_pos_of_magnitude hx hpos) hsettles
    refine (Decimal.value_bounds hne).2.trans_le ?_
    rw [Nat.cast_pow, Nat.cast_ofNat, ← zpow_natCast]
    exact zpow_le_zpow_right₀ (by norm_num) (by omega)
  generalize decimalLength m - 1 = places at hlow hbelow
  obtain rfl : m = 10 ^ places := by
    have hless : (2 * m : ℚ) < 2 * (10 ^ places : Nat) + 1 := by linarith
    have hless : 2 * m < 2 * 10 ^ places + 1 := by exact_mod_cast hless
    omega
  have hpower : (⟨1, places⟩ : Decimal).value = (10 ^ places : Nat) := by
    rw [Decimal.value_of_natCast rfl, Nat.one_mul]
  have hone : decimalLength 1 ≤ 1 := decimalLength_le_iff.mpr (by decide)
  exact (hd.fewest ⟨1, places⟩ (isNearest_of_value_eq hfinite hx hpos hpower)).trans hone

/-- Of one digit and a fraction there are nine tenths at most. The only integer that is less
than one away from them is one, and to that they are not near enough. -/
theorem exponent_nonneg (hm : m < 2 ^ 53) {d : Decimal} (hd : d.IsShortest x) :
    0 ≤ d.exponent := by
  refine not_lt.mp fun hneg => ?_
  have hsettles := hd.readsBack.settles hfinite (place_pos_of_magnitude hx hpos)
  obtain ⟨hnear, -⟩ := hsettles.near_integer hx hm
  have hdigit : d.digits < 10 :=
    decimalLength_le_iff.mp (decimalLength_le_one hfinite hx hpos hm hd hneg)
  have htenths : d.value ≤ 9 / 10 := by
    have hexponent : (10 : ℚ) ^ d.exponent ≤ 10 ^ (-1 : Int) :=
      zpow_le_zpow_right₀ (by norm_num) (by omega)
    have hcast : (d.digits : ℚ) ≤ 9 := by exact_mod_cast Nat.le_of_lt_succ hdigit
    calc d.value ≤ 9 * (10 : ℚ) ^ (-1 : Int) :=
          mul_le_mul hcast hexponent (by positivity) (by norm_num)
      _ = 9 / 10 := by norm_num
  obtain rfl : m = 1 := by
    have hless : (2 * m : ℚ) < 3 := by linarith
    have hless : 2 * m < 3 := by exact_mod_cast hless
    omega
  rw [Nat.one_mul, magnitude_eq_magnitudeAt] at hx
  have hclose : (4 * unitsPerOne : ℚ) < 5 * magnitudeAt (x.place - 1) := by
    exact_mod_cast magnitudeAt_before_one hx
  have hfar := hsettles.low
  rw [hx] at hfar
  have hscaled := mul_le_mul_of_nonneg_right htenths (Nat.cast_nonneg' unitsPerOne : (0 : ℚ) ≤ _)
  linarith

/-- **The general rule.** A shortest decimal of an integer below `2 ^ 53` is the integer, and is
written as its plain numeral. -/
theorem toChars_of_isShortest (hm : m < 2 ^ 53) {d : Decimal} (hd : d.IsShortest x) :
    d.toChars = Nat.toDigits 10 m := by
  obtain ⟨e, he⟩ := Int.eq_ofNat_of_zero_le (exponent_nonneg hfinite hx hpos hm hd)
  have hsettles := hd.readsBack.settles hfinite (place_pos_of_magnitude hx hpos)
  rw [Decimal.value_of_natCast he] at hsettles
  exact Decimal.toChars_of_natCast he hpos (hsettles.eq_of_nat hx hm) (hm.trans (by decide))

end Integral

/-! ## Integers as text -/

/-- An integral double is the integer that it is truncated to. -/
theorem magnitude_eq_natAbs {x : Double} (h : x.isIntegral = true) :
    x.magnitude = x.truncate.natAbs * unitsPerOne := by
  have hdvd := unitsPerOne_dvd_magnitude h
  have hnatAbs : x.units.natAbs = x.magnitude := by
    rw [units]
    split
    · rw [Int.natAbs_neg, Int.natAbs_natCast]
    · rw [Int.natAbs_natCast]
  rw [truncate, Int.natAbs_tdiv, hnatAbs, Int.natAbs_natCast]
  exact (Nat.div_mul_cancel hdvd).symm

theorem truncate_eq {x : Double} (h : x.isIntegral = true) :
    x.truncate = if x.isNegative then -(x.truncate.natAbs : Int) else x.truncate.natAbs := by
  have hone : (unitsPerOne : Int) ≠ 0 := by exact_mod_cast unitsPerOne_pos.ne'
  have hx := magnitude_eq_natAbs h
  generalize x.truncate.natAbs = m at hx
  rw [truncate, units, hx, Int.natCast_mul]
  split
  · rw [← Int.neg_mul, Int.mul_tdiv_cancel _ hone]
  · rw [Int.mul_tdiv_cancel _ hone]

/-- A negative integer is written with a sign. -/
theorem toList_toString_neg {m : Nat} (hm : 0 < m) :
    (toString (-(m : Int))).toList = '-' :: Nat.toDigits 10 m := by
  obtain ⟨k, rfl⟩ := Nat.exists_eq_add_of_lt hm
  rw [show -((0 + k + 1 : Nat) : Int) = Int.negSucc k by omega, Nat.zero_add]
  change ("-" ++ Nat.repr (k + 1)).toList = _
  rw [String.toList_append, Nat.toList_repr]
  rfl

/-- The sign and the digits of an integer other than zero. -/
theorem signChars_append_toDigits {x : Double} (h : x.isIntegral = true) (hne : x.truncate ≠ 0) :
    x.signChars ++ Nat.toDigits 10 x.truncate.natAbs = (toString x.truncate).toList := by
  have hpos : 0 < x.truncate.natAbs := Int.natAbs_pos.mpr hne
  have htruncate := truncate_eq h
  generalize x.truncate = n at htruncate hpos
  generalize n.natAbs = m at htruncate hpos
  rw [signChars, htruncate]
  cases x.isNegative with
  | true => exact (toList_toString_neg hpos).symm
  | false => exact (Literal.toList_toString m).symm

section Printed

variable {printer : Printer} (hprinter : printer.PrintsShortest) {x : Double}
  (h : x.isIntegral = true) (hm : x.truncate.natAbs < 2 ^ 53)
include hprinter h hm

/-- A printer writes an integer below `2 ^ 53` as it is. -/
theorem ofFinite_of_isIntegral (hne : x.truncate ≠ 0) :
    printer.ofFinite x = (toString x.truncate).toList := by
  have hfinite := isFinite_of_isIntegral h
  have hx := magnitude_eq_natAbs h
  have hpos : 0 < x.truncate.natAbs := Int.natAbs_pos.mpr hne
  obtain ⟨d, hd⟩ := hprinter x hfinite (place_pos_of_magnitude hx hpos)
  rw [hd.layout, toChars_of_isShortest hfinite hx hpos hm hd.toIsShortest,
    signChars_append_toDigits h hne]

/-- **Integers** below `2 ^ 53` are written as they are. -/
theorem toTextBy_of_isIntegral : x.toTextBy printer = toString x.truncate := by
  have hfinite := isFinite_of_isIntegral h
  have hx := magnitude_eq_natAbs h
  by_cases hne : x.truncate = 0
  · have hzero : x.isZero = true := by simpa [isZero, hne] using hx
    rw [toTextBy_of_isZero printer hzero, hne]
    rfl
  · have hzero : x.isZero = false := by
      rw [isZero, hx]
      exact decide_eq_false (Nat.mul_pos (Int.natAbs_pos.mpr hne) unitsPerOne_pos).ne'
    rw [← String.toList_inj, toTextBy, String.toList_ofList, toCharsBy, isNaN_of_isFinite hfinite,
      hzero, isInfinite_of_isFinite hfinite, hx, Nat.mul_div_cancel _ unitsPerOne_pos,
      signChars_append_toDigits h hne, ofFinite_of_isIntegral hprinter h hm hne]
    simp only [Bool.false_eq_true, if_false, ite_self]

end Printed

/-- What is an integer key without being written is a natural number below `maxLength`. -/
theorem toIndexKey?_eq_some {x : Double} {i : Nat} (h : x.toIndexKey? = some i) :
    x.isIntegral = true ∧ x.truncate = i ∧ i < maxLength := by
  rw [toIndexKey?, Option.ite_none_right_eq_some, Bool.and_eq_true, Bool.and_eq_true,
    Option.some.injEq] at h
  obtain ⟨⟨⟨hintegral, hsign⟩, hless⟩, rfl⟩ := h
  have hone : (0 : Int) < unitsPerOne := by exact_mod_cast unitsPerOne_pos
  have hnan := isNaN_of_isFinite (isFinite_of_isIntegral hintegral)
  have hunits := units_eq_truncate hintegral
  have hlimit : (ofNat maxLength).units = maxLength * unitsPerOne := units_ofNat (by decide)
  have hzero : zero.units = 0 * unitsPerOne := by decide +kernel
  -- the comparisons of doubles are comparisons of the integers
  simp only [lessThan, hnan, hunits, hzero, Bool.not_false, Bool.true_and, Bool.not_eq_true',
    Bool.and_eq_false_iff, decide_eq_false_iff_not] at hsign
  have hnonneg : 0 ≤ x.truncate := by
    have hsign := hsign.resolve_left (by decide)
    exact Int.not_lt.mp fun hlt => hsign (Int.mul_lt_mul_of_pos_right hlt hone)
  simp only [lessThan, hunits, hlimit, Bool.and_eq_true, decide_eq_true_eq] at hless
  have hlt := Int.lt_of_mul_lt_mul_right hless.2 hone.le
  exact ⟨hintegral, by omega, by omega⟩

/-- The integer key that a number is, is read from its text. -/
theorem parseIndex_toTextBy {printer : Printer} (hprinter : printer.PrintsShortest) {x : Double}
    {i : Nat} (h : x.toIndexKey? = some i) : parseIndex (x.toTextBy printer) = some i := by
  obtain ⟨hintegral, htruncate, hi⟩ := toIndexKey?_eq_some h
  have hsmall : x.truncate.natAbs < 2 ^ 53 := by
    rw [htruncate, Int.natAbs_natCast]
    exact hi.trans (by decide)
  refine parseIndex_eq_some_iff.mpr ⟨hi, Literal.plainNumeral_iff.mpr ?_⟩
  rw [toTextBy_of_isIntegral hprinter hintegral hsmall, htruncate]
  rfl

end Double

namespace Program

variable {σ : Type}

/-! ## Keys of values -/

section Keys

variable {printer : Printer} {v : Value} {t : String}
  (ht : v.primitiveToStringBy printer = .ok t)
include ht

theorem keyOfPrimitive_eq :
    (keyOfPrimitive printer v : Program σ PropertyKey) = .done (.ofString t) := by
  rw [keyOfPrimitive, ht]
  rfl

/-- A primitive value that has a text has the key of that text. -/
theorem toPropertyKeyBy_eq (hprinter : printer.PrintsShortest) :
    (toPropertyKeyBy printer v : Program σ PropertyKey) = .done (.ofString t) := by
  cases v with
  | string s =>
    cases ht
    rfl
  | number x =>
    cases ht
    simp only [toPropertyKeyBy]
    cases hkey : x.toIndexKey? with
    | some i =>
      rw [PropertyKey.ofString, Double.parseIndex_toTextBy hprinter hkey]
      rfl
    | none => rfl
  | symbol s => cases ht
  | object o => cases ht
  | _ => exact keyOfPrimitive_eq ht

theorem toTextBy_eq : (toTextBy printer v : Program σ String) = .done t := by
  cases v with
  | object o => cases ht
  | _ =>
    simp only [toTextBy, toPrimitive, pure_eq, bind_eq, done_bind, ht]
    rfl

end Keys

/-- Every primitive value but a symbol has a text. -/
theorem exists_primitiveToStringBy (printer : Printer) {v : Value} (hobject : v.isObject = false)
    (hsymbol : ∀ s, v ≠ .symbol s) : ∃ t, v.primitiveToStringBy printer = .ok t := by
  cases v with
  | symbol s => exact absurd rfl (hsymbol s)
  | object o => cases hobject
  | _ => exact ⟨_, rfl⟩

/-- What a printer must make sure of: a primitive value other than a symbol becomes, without
running code, the key of the text that it becomes; and an integral number below `2 ^ 53` is
written as its plain numeral, by the printer too where that is passed by. -/
structure KeysOfText (σ : Type) (printer : Printer) : Prop where
  key : ∀ v : Value, v.isObject = false → (∀ s, v ≠ .symbol s) →
    ∃ t, (toTextBy printer v : Program σ String) = .done t ∧
      (toPropertyKeyBy printer v : Program σ PropertyKey) = .done (.ofString t)
  numeral : ∀ x : Double, x.isIntegral = true → x.truncate.natAbs < 2 ^ 53 →
    x.toTextBy printer = toString x.truncate ∧
      (x.truncate ≠ 0 → printer.ofFinite x = (toString x.truncate).toList)

theorem keysOfText {printer : Printer} (hprinter : printer.PrintsShortest) :
    KeysOfText σ printer where
  key v hobject hsymbol := by
    obtain ⟨t, ht⟩ := exists_primitiveToStringBy printer hobject hsymbol
    exact ⟨t, toTextBy_eq ht, toPropertyKeyBy_eq ht hprinter⟩
  numeral x hx hsmall :=
    ⟨Double.toTextBy_of_isIntegral hprinter hx hsmall,
      Double.ofFinite_of_isIntegral hprinter hx hsmall⟩

/-- **Numbers as keys.** With every printer that writes shortest decimals, a primitive value
other than a symbol becomes, without running code, the key of the text that it becomes, and an
integral number below `2 ^ 53` is written as its plain numeral. So it is with the standard
printer: where the search for the shortest decimal is passed by, it would give the same
digits. -/
theorem property_key_of_text :
    (∀ printer : Printer, printer.PrintsShortest → KeysOfText σ printer) ∧
      (∀ v : Value, v.isObject = false → (∀ s, v ≠ .symbol s) →
        ∃ t, (toText v : Program σ String) = .done t ∧
          (toPropertyKey v : Program σ PropertyKey) = .done (.ofString t)) ∧
      ∀ x : Double, x.isIntegral = true → x.truncate.natAbs < 2 ^ 53 →
        x.toText = toString x.truncate ∧
          (x.truncate ≠ 0 → x.shortest.toChars = Nat.toDigits 10 x.truncate.natAbs) := by
  have hstandard : KeysOfText σ .standard := keysOfText Printer.printsShortest_standard
  refine ⟨fun _ => keysOfText, hstandard.key, fun x hx hsmall => ?_⟩
  obtain ⟨hplain, hlong⟩ := hstandard.numeral x hx hsmall
  refine ⟨hplain, fun hne => ?_⟩
  have hchars : x.signChars ++ x.shortest.toChars =
      x.signChars ++ Nat.toDigits 10 x.truncate.natAbs :=
    (hlong hne).trans (Double.signChars_append_toDigits hx hne).symm
  exact List.append_cancel_left hchars

/-- Minus zero, and the first natural number that is no integer key. -/
theorem property_key_of_text_at_bounds :
    let x := Double.ofNat 9007199254740991
    KeysOfText Unit .standard ∧
      (∃ t, (toText (.number .negZero) : Program Unit String) = .done t ∧
        (toPropertyKey (.number .negZero) : Program Unit PropertyKey) = .done (.ofString t)) ∧
      (x.isIntegral = true ∧ x.truncate.natAbs < 2 ^ 53) ∧ x.toText = "9007199254740991" ∧
      x.shortest.toChars = "9007199254740991".toList := by
  intro x
  obtain ⟨hgeneral, hkey, htext⟩ := property_key_of_text (σ := Unit)
  have hintegral : x.isIntegral = true := Double.isIntegral_ofNat (by decide)
  have htruncate : x.truncate = 9007199254740991 := Double.truncate_ofNat (by decide)
  have hsmall : x.truncate.natAbs < 2 ^ 53 := by
    rw [htruncate]
    decide
  obtain ⟨hplain, hsearch⟩ := htext x hintegral hsmall
  rw [htruncate] at hplain hsearch
  refine ⟨hgeneral _ Printer.printsShortest_standard, hkey _ rfl (fun _ => nofun),
    ⟨hintegral, hsmall⟩, hplain, (hsearch (by decide)).trans ?_⟩
  decide

end Program

end Ecma
