import Ecma.Number.Canonical
import Ecma.Proofs.Number.LiteralReading
import Ecma.Proofs.Number.FewestDigits

/-!
# Numbers read back from their text

Every way of writing a number is a literal of the grammar: digits alone, digits with zeros
behind or in front, with a point among them, or with a signed exponent. The literal denotes
the decimal that is written (`unsigned_toChars`), and the number is the nearest double to
that decimal. Reading gives the nearest double too, and there is only one. Which shortest
decimal the printer chooses makes no difference, nor does how the conversion rounds what is
not a decimal literal.

So all doubles come back from their text bit by bit, except that minus zero comes back as
zero and every not-a-number as the same one. A text is canonical exactly if it is the text
of a double, or `-0`.
-/

namespace Ecma

namespace Literal

/-! ## Digits -/

/-- The digits of a number denote it. -/
theorem digits_toDigits (n : Nat) : Digits 10 (Nat.toDigits 10 n) n := by
  induction n using Nat.strongRecOn with
  | _ n ih =>
    have hdigit (d : Nat) (hd : d < 10) : IsDigit 10 (Nat.digitChar d) d := by
      refine ⟨hd, .inl ?_⟩
      interval_cases d <;> rfl
    rw [Nat.toDigits_eq_if (by decide)]
    split
    · next hlt => exact .one (hdigit n hlt)
    · have hmore := Digits.more (ih (n / 10) (by omega)) (hdigit (n % 10) (by omega))
      rwa [Nat.div_add_mod' n 10] at hmore

/-- Zeros behind a number multiply it. -/
theorem Digits.append_zeros {ds : List Char} {n : Nat} (h : Digits 10 ds n) (k : Nat) :
    Digits 10 (ds ++ Decimal.zeros k) (n * 10 ^ k) := by
  induction k with
  | zero =>
    rw [Nat.pow_zero, Nat.mul_one, Decimal.zeros, List.replicate_zero, List.append_nil]
    exact h
  | succ k ih =>
    have hmore := Digits.more ih isDigit_zero
    rw [Nat.add_zero, Nat.mul_assoc, ← Nat.pow_succ, List.append_assoc] at hmore
    rwa [Decimal.zeros, List.replicate_succ']

/-- Zeros in front of a number change nothing. -/
theorem Digits.zeros_append {ds : List Char} {n : Nat} (h : Digits 10 ds n) (k : Nat) :
    Digits 10 (Decimal.zeros k ++ ds) n := by
  induction k with
  | zero => exact h
  | succ k ih =>
    have hcons := (Digits.one isDigit_zero).append ih
    rwa [Nat.zero_mul, Nat.zero_add] at hcons

/-- Digits alone are a literal. -/
theorem Digits.unsigned {ds : List Char} {n : Nat} (h : Digits 10 ds n) : Unsigned ds n := by
  have hwhole := Unsigned.whole h .absent
  rwa [List.append_nil, zpow_zero, mul_one] at hwhole

/-- Digits that are cut in two. -/
theorem Digits.split {ds es : List Char} {n : Nat} (h : Digits 10 (ds ++ es) n) (hds : ds ≠ [])
    (hes : es ≠ []) :
    ∃ a b, Digits 10 ds a ∧ Digits 10 es b ∧ n = a * 10 ^ es.length + b := by
  obtain ⟨a, ha⟩ := exists_digits hds fun c hc => h.isDigit c (List.mem_append_left _ hc)
  obtain ⟨b, hb⟩ := exists_digits hes fun c hc => h.isDigit c (List.mem_append_right _ hc)
  exact ⟨a, b, ha, hb, h.unique (by decide) (ha.append hb)⟩

/-- A point among digits moves the last of them behind it. -/
theorem Digits.unsigned_point {ds es e : List Char} {n : Nat} {k : Int}
    (h : Digits 10 (ds ++ es) n) (hds : ds ≠ []) (hes : es ≠ []) (he : Exponent e k) :
    Unsigned (ds ++ '.' :: (es ++ e)) (n * 10 ^ (k - es.length)) := by
  obtain ⟨a, b, ha, hb, rfl⟩ := h.split hds hes
  have hvalue : ((a * 10 ^ es.length + b : Nat) : ℚ) * 10 ^ (k - es.length) =
      (a + b * 10 ^ (-(es.length : Int))) * 10 ^ k := by
    rw [zpow_sub₀ (by norm_num), zpow_neg, zpow_natCast]
    push_cast
    field_simp
  rw [hvalue]
  exact .fraction ha hb he

theorem exponent_exponentText (e : Int) : Exponent (Decimal.exponentText e) e := by
  rw [Decimal.exponentText]
  split
  · next hneg =>
    have hminus := Exponent.minus (.inl rfl) (digits_toDigits e.natAbs)
    rwa [show -(e.natAbs : Int) = e by omega] at hminus
  · next hneg =>
    have hplus := Exponent.plus (.inl rfl) (digits_toDigits e.natAbs)
    rwa [show (e.natAbs : Int) = e by omega] at hplus

/-! ## Decimals -/

/-- **Every layout** of digits is a literal that denotes the same number. -/
theorem unsigned_layout {ds : List Char} {n : Nat} (h : Digits 10 ds n) (point : Int) :
    Unsigned (Decimal.layout ds point) (n * 10 ^ (point - ds.length)) := by
  unfold Decimal.layout
  dsimp only
  split
  · next hwhole =>
    -- zeros behind the digits
    have hunsigned := (h.append_zeros (point - ds.length).toNat).unsigned
    have hpower : ((point - ds.length).toNat : Int) = point - ds.length := by omega
    rwa [Nat.cast_mul, Nat.cast_pow, Nat.cast_ofNat, ← zpow_natCast, hpower] at hunsigned
  · split
    · next hwhole hpoint =>
      -- a point among the digits
      have hsplit := h
      rw [← List.take_append_drop point.toNat ds] at hsplit
      have hlen : 0 < ds.length := List.length_pos_iff.mpr h.ne_nil
      have htake : ds.take point.toNat ≠ [] := by
        rw [← List.length_pos_iff, List.length_take]
        omega
      have hdrop : ds.drop point.toNat ≠ [] := by
        rw [← List.length_pos_iff, List.length_drop]
        omega
      have hunsigned := hsplit.unsigned_point htake hdrop .absent
      have hpower : 0 - ((ds.drop point.toNat).length : Int) = point - ds.length := by
        rw [List.length_drop]
        omega
      rwa [hpower, List.append_nil] at hunsigned
    · split
      · next hsmall =>
        -- a point in front, with zeros on both sides of it
        have hzeros : Digits 10 (['0'] ++ (Decimal.zeros point.natAbs ++ ds)) n :=
          h.zeros_append (point.natAbs + 1)
        have hne : Decimal.zeros point.natAbs ++ ds ≠ [] :=
          List.append_ne_nil_of_right_ne_nil _ h.ne_nil
        have hunsigned := hzeros.unsigned_point (List.cons_ne_nil _ _) hne .absent
        have hpower : 0 - ((Decimal.zeros point.natAbs ++ ds).length : Int) = point - ds.length := by
          rw [List.length_append, Decimal.zeros, List.length_replicate]
          omega
        rwa [hpower, List.append_nil] at hunsigned
      · -- an exponent, after one digit or after a point behind the first one
        rcases ds with _ | ⟨d, _ | ⟨d', rest⟩⟩
        · exact absurd rfl h.ne_nil
        · exact .whole h (exponent_exponentText (point - 1))
        · have hcut : Digits 10 ([d] ++ d' :: rest) n := h
          have hunsigned := hcut.unsigned_point (List.cons_ne_nil _ _) (List.cons_ne_nil _ _)
            (exponent_exponentText (point - 1))
          have hpower : point - 1 - ((d' :: rest).length : Int) =
              point - (d :: d' :: rest).length := by
            rw [List.length_cons (a := d)]
            omega
          rwa [hpower] at hunsigned

/-- **A decimal as text** is a literal that denotes it. -/
theorem unsigned_toChars (d : Decimal) : Unsigned d.toChars d.value := by
  have hunsigned := unsigned_layout (digits_toDigits d.digits)
    ((Nat.toDigits 10 d.digits).length + d.exponent)
  rwa [add_sub_cancel_left] at hunsigned

/-- The characters of a decimal literal are no blanks. -/
theorem Unsigned.isBlank {cs : List Char} {q : ℚ} (h : Unsigned cs q) :
    ∀ c ∈ cs, Text.isBlank c = false := by
  intro c hc
  rcases h.chars c hc with hdigit | hmark
  · have hrange := (isDigit_iff c).mp hdigit
    refine Bool.eq_false_iff.mpr fun hblank => ?_
    rw [Text.isBlank_iff, Blank] at hblank
    simp only [whiteSpace, lineTerminators, List.mem_cons, List.not_mem_nil, or_false] at hblank
    omega
  · have hall : ∀ c ∈ ['.', 'e', 'E', '+', '-'], Text.isBlank c = false :=
      List.all_iff_forall_prop.mp (by decide)
    exact hall c hmark

/-- A sign is no blank. -/
theorem Sign.not_isBlank_append {s cs : List Char} {negative : Bool} (hs : Sign s negative)
    (hcs : ∀ c ∈ cs, Text.isBlank c = false) : ∀ c ∈ s ++ cs, Text.isBlank c = false := by
  intro c hc
  rcases List.mem_append.mp hc with hc | hc
  · have hsign : ∀ c ∈ s, Text.isBlank c = false := by
      cases hs <;> exact List.all_iff_forall_prop.mp (by decide)
    exact hsign c hc
  · exact hcs c hc

/-- A sign and a text without blanks are read as they stand. -/
theorem Sign.readNumber_append (conversion : Conversion) {s cs : List Char} {negative : Bool}
    (hs : Sign s negative) (hne : cs ≠ []) (hcs : ∀ c ∈ cs, Text.isBlank c = false) :
    readNumber conversion (String.ofList (s ++ cs)) = number conversion (s ++ cs) := by
  rw [readNumber, String.toList_ofList, Text.trim_of_forall (hs.not_isBlank_append hcs)]
  split
  · next hnil => exact absurd hnil (List.append_ne_nil_of_right_ne_nil _ hne)
  · rfl

/-- **A literal** with a sign is read as the nearest double. -/
theorem isNearest_readNumber {conversion : Conversion} (hconversion : conversion.RoundsDecimals)
    {s cs : List Char} {negative : Bool} {q : ℚ} (hs : Sign s negative) (hcs : Unsigned cs q) :
    Double.IsNearest negative q (readNumber conversion (String.ofList (s ++ cs))) := by
  obtain ⟨c, rest, hhead, -⟩ := hcs.head
  have hne : cs ≠ [] := by
    rw [hhead]
    exact List.cons_ne_nil _ _
  rw [hs.readNumber_append conversion hne hcs.isBlank]
  exact isNearest_number hconversion hs hcs

end Literal

namespace Double

/-! ## What is written -/

theorem sign_signChars (x : Double) : Literal.Sign x.signChars x.isNegative := by
  rw [signChars]
  cases x.isNegative with
  | false => exact .absent
  | true => exact .minus

theorem toTextBy_of_isNaN (printer : Printer) {x : Double} (h : x.isNaN = true) :
    x.toTextBy printer = "NaN" := by
  rw [toTextBy, toCharsBy, if_pos h]
  rfl

/-- The sign of zero is not written. -/
theorem toTextBy_of_isZero (printer : Printer) {x : Double} (h : x.isZero = true) :
    x.toTextBy printer = "0" := by
  have hnan : x.isNaN = false := by
    refine Bool.eq_false_iff.mpr fun hnan => ?_
    have hplace := (isNaN_iff_place x).mp hnan
    rw [(isZero_iff_place x).mp h] at hplace
    exact absurd hplace (Nat.not_lt_zero _)
  rw [toTextBy, toCharsBy, hnan, h]
  rfl

/-- What is written for a finite double other than zero is a literal, and the double is the
nearest one to what that denotes. -/
theorem exists_unsigned {printer : Printer} (hprinter : printer.PrintsShortest) {x : Double}
    (hfinite : x.isFinite = true) (hpos : 0 < x.place) :
    ∃ cs q, x.toTextBy printer = String.ofList (x.signChars ++ cs) ∧ Literal.Unsigned cs q ∧
      IsNearest x.isNegative q x := by
  have hzero : x.isZero = false := Bool.eq_false_iff.mpr fun h =>
    hpos.ne' ((isZero_iff_place x).mp h)
  rw [toTextBy, toCharsBy, isNaN_of_isFinite hfinite, hzero, isInfinite_of_isFinite hfinite]
  simp only [Bool.false_eq_true, if_false]
  split
  · next hsmall =>
    have hwhole := (Bool.and_eq_true_iff.mp (Bool.and_eq_true_iff.mp hsmall).1).2
    have hmagnitude : x.magnitude / unitsPerOne * unitsPerOne = x.magnitude :=
      Nat.div_mul_cancel (Nat.dvd_of_mod_eq_zero (of_decide_eq_true hwhole))
    refine ⟨_, _, rfl, (Literal.digits_toDigits (x.magnitude / unitsPerOne)).unsigned, ?_⟩
    rw [isNearest_iff_settles hfinite hpos, ← Nat.cast_mul, hmagnitude, magnitude_eq_magnitudeAt]
    exact settles_magnitudeAt x.place
  · obtain ⟨d, hd⟩ := hprinter x hfinite hpos
    exact ⟨_, _, by rw [hd.layout], Literal.unsigned_toChars d, hd.readsBack⟩

/-! ## What is read back -/

section RoundTrip

variable {printer : Printer} {conversion : Literal.Conversion}

/-- There is no number to read. -/
theorem readNumber_nan (conversion : Literal.Conversion) : readNumber conversion "NaN" = nan := rfl

/-- Zero is read with its sign. -/
theorem readNumber_zero (hconversion : conversion.RoundsDecimals) :
    readNumber conversion "0" = zero ∧ readNumber conversion "-0" = negZero := by
  have hsettles : Settles 0 ((0 : Nat) * unitsPerOne) := by
    have hzero := settles_magnitudeAt 0
    rw [Nat.cast_zero, zero_mul]
    rwa [magnitudeAt_zero, Nat.cast_zero] at hzero
  have hdigit : Literal.Unsigned ['0'] (0 : Nat) :=
    (Literal.Digits.one Literal.isDigit_zero).unsigned
  exact ⟨(Literal.isNearest_readNumber hconversion .absent hdigit).unique
      (hsettles.isNearest (by decide) false),
    (Literal.isNearest_readNumber hconversion .minus hdigit).unique
      (hsettles.isNearest (by decide) true)⟩

/-- **Numbers read back** from their text. -/
theorem readNumber_toTextBy (hprinter : printer.PrintsShortest)
    (hconversion : conversion.RoundsDecimals) {x : Double} (hnan : x.isNaN = false)
    (hne : x ≠ negZero) : readNumber conversion (x.toTextBy printer) = x := by
  rcases Nat.eq_zero_or_pos x.place with hplace | hpos
  · have hx : x = zero := by
      rw [← x.assemble_place, hplace] at hne ⊢
      cases hneg : x.isNegative with
      | false => rfl
      | true => exact absurd (by rw [hneg]; rfl) hne
    rw [toTextBy_of_isZero printer ((isZero_iff_place x).mpr hplace), hx]
    exact (readNumber_zero hconversion).1
  · cases hinfinite : x.isInfinite with
    | false =>
      obtain ⟨cs, q, htext, hcs, hnearest⟩ :=
        exists_unsigned hprinter (isFinite_of_not hnan hinfinite) hpos
      rw [htext]
      exact (Literal.isNearest_readNumber hconversion x.sign_signChars hcs).unique hnearest
    | true =>
      have hx : x = if x.isNegative then negInfinity else infinity := by
        nth_rewrite 1 [← x.assemble_place]
        rw [(isInfinite_iff_place x).mp hinfinite]
        cases x.isNegative <;> rfl
      have hzero : x.isZero = false := Bool.eq_false_iff.mpr fun h =>
        hpos.ne' ((isZero_iff_place x).mp h)
      have hblank : ∀ c ∈ "Infinity".toList, Text.isBlank c = false :=
        List.all_iff_forall_prop.mp (by decide)
      have htext : x.toTextBy printer = String.ofList (x.signChars ++ "Infinity".toList) := by
        rw [toTextBy, toCharsBy, hnan, hzero, hinfinite]
        rfl
      rw [htext, x.sign_signChars.readNumber_append conversion (by decide) hblank,
        Literal.number_infinity _ x.sign_signChars]
      exact hx.symm

variable (hprinter : printer.PrintsShortest) (hconversion : conversion.RoundsDecimals)
include hprinter hconversion

/-- Reading the text of a double other than minus zero. -/
theorem readNumber_toTextBy_eq {x : Double} (h : x ≠ negZero) :
    readNumber conversion (x.toTextBy printer) = if x.isNaN then nan else x := by
  cases hnan : x.isNaN with
  | true =>
    rw [toTextBy_of_isNaN printer hnan]
    exact readNumber_nan conversion
  | false => exact readNumber_toTextBy hprinter hconversion hnan h

/-- What is read back from a text is written the same way. -/
theorem toTextBy_readNumber_toTextBy {x : Double} (h : x ≠ negZero) :
    (readNumber conversion (x.toTextBy printer)).toTextBy printer = x.toTextBy printer := by
  rw [readNumber_toTextBy_eq hprinter hconversion h]
  cases hnan : x.isNaN with
  | true => rw [if_pos rfl, toTextBy_of_isNaN printer hnan, toTextBy_of_isNaN printer (by decide)]
  | false => rfl

/-- No double is written `-0`. -/
theorem toTextBy_ne_minus_zero {x : Double} (h : x ≠ negZero) : x.toTextBy printer ≠ "-0" := by
  intro htext
  have hread := readNumber_toTextBy_eq hprinter hconversion h
  rw [htext, (readNumber_zero hconversion).2] at hread
  cases hnan : x.isNaN with
  | true =>
    rw [hnan, if_pos rfl] at hread
    exact absurd hread (by decide)
  | false =>
    rw [hnan] at hread
    exact h hread.symm

end RoundTrip

/-- What a way of writing numbers, one of reading them, and one of telling canonical texts
promise together. -/
structure RoundTrips (write : Double → String) (read : String → Double)
    (canonical : String → Option Double) : Prop where
  read_write : ∀ x : Double, x.isNaN = false → x ≠ negZero → read (write x) = x
  read_write_negZero : read (write negZero) = zero
  read_write_nan : ∀ x : Double, x.isNaN = true → read (write x) = nan
  canonical_minus_zero : canonical "-0" = some negZero
  canonical_write : ∀ x : Double, x ≠ negZero →
    canonical (write x) = some (if x.isNaN then nan else x)
  not_canonical : ∀ s, s ≠ "-0" → (∀ x : Double, x ≠ negZero → write x ≠ s) →
    canonical s = none

theorem roundTrips {printer : Printer} (hprinter : printer.PrintsShortest)
    {conversion : Literal.Conversion} (hconversion : conversion.RoundsDecimals) :
    RoundTrips (toTextBy printer) (readNumber conversion)
      (canonicalNumericBy conversion printer) where
  read_write _ := readNumber_toTextBy hprinter hconversion
  read_write_negZero := by
    rw [toTextBy_of_isZero printer (by decide)]
    exact (readNumber_zero hconversion).1
  read_write_nan _ h := by
    rw [toTextBy_of_isNaN printer h]
    exact readNumber_nan conversion
  canonical_minus_zero := if_pos rfl
  canonical_write _ h := by
    rw [canonicalNumericBy, if_neg (toTextBy_ne_minus_zero hprinter hconversion h),
      if_pos (toTextBy_readNumber_toTextBy hprinter hconversion h),
      readNumber_toTextBy_eq hprinter hconversion h]
  not_canonical s hs htext := by
    rw [canonicalNumericBy, if_neg hs, if_neg]
    intro hsame
    by_cases hzero : readNumber conversion s = negZero
    · -- the sign of zero is lost, so that this is the text of zero
      rw [hzero, toTextBy_of_isZero printer (by decide)] at hsame
      refine htext zero (by decide) ?_
      rw [toTextBy_of_isZero printer (by decide), hsame]
    · exact htext _ hzero hsame

/-- **The text of a number** reads back as the number, bit by bit, except that the sign of
zero is lost and that there is one not-a-number. Therefore the canonical texts are `-0` and
the texts of the doubles other than minus zero, and no others. This takes no more than a
printer that writes shortest decimals and a conversion that rounds decimals, and the standard
ones are such. -/
theorem number_text_round_trip :
    (∀ printer : Printer, printer.PrintsShortest → ∀ conversion : Literal.Conversion,
        conversion.RoundsDecimals →
          RoundTrips (toTextBy printer) (readNumber conversion)
            (canonicalNumericBy conversion printer)) ∧
      RoundTrips toText stringToNumber canonicalNumeric :=
  ⟨fun _ hprinter _ hconversion => roundTrips hprinter hconversion,
    roundTrips Printer.printsShortest_standard Literal.roundsDecimals_standard⟩

/-- The least positive double comes back, and a text that no double is written as is not
canonical. The conversion of radix literals has no part in this. -/
theorem number_text_round_trip_at_extremes :
    let conversion : Literal.Conversion := ⟨Literal.Conversion.standard.ofDecimal, ofNat⟩
    stringToNumber (assemble false 1).toText = assemble false 1 ∧
      stringToNumber (assemble true (infinityBits + 1)).toText = nan ∧
      canonicalNumeric infinity.toText = some infinity ∧ canonicalNumeric "0x" = none ∧
      readNumber conversion ((assemble true 1).toTextBy .standard) = assemble true 1 := by
  intro conversion
  have hconversion : conversion.RoundsDecimals := fun text q h =>
    Literal.roundsDecimals_standard text q h
  obtain ⟨hgeneral, hstandard⟩ := number_text_round_trip
  refine ⟨hstandard.read_write _ (by decide) (by decide), hstandard.read_write_nan _ (by decide),
    hstandard.canonical_write _ (by decide), hstandard.not_canonical _ (by decide) ?_,
    (hgeneral .standard Printer.printsShortest_standard conversion hconversion).read_write _
      (by decide) (by decide)⟩
  intro x hx htext
  have hread := readNumber_toTextBy_eq Printer.printsShortest_standard
    Literal.roundsDecimals_standard hx
  have hnone : readNumber .standard "0x" = nan := by decide +kernel
  change x.toTextBy .standard = "0x" at htext
  rw [htext, hnone] at hread
  cases h : x.isNaN with
  | true =>
    rw [toTextBy_of_isNaN .standard h] at htext
    exact absurd htext (by decide)
  | false =>
    rw [h] at hread
    rw [← show nan = x from hread] at h
    exact absurd h (by decide)

end Double

end Ecma
