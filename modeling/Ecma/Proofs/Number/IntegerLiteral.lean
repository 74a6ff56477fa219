import Ecma.Proofs.Number.RoundTrip

/-!
# Integer literals are read exactly

Integers have a reader of their own, with fewer literals than numbers have: digits with an
optional sign, and radix literals. It accepts these and nothing else, and gives what they denote
(`integer?_eq_some_iff`). An integer in decimal notation is such a literal, so it reads back.

Both readers take the same blanks off, and every integer literal is a numeric literal with the
same value (`IntegerLiteral.numericLiteral`). So **the two readers agree**: a text that is an
integer to the one is to the other the double nearest to it. Only the sign of a zero is lost.
-/

namespace Ecma.Literal

/-- An integer literal, and the integer that it denotes. -/
inductive IntegerLiteral : List Char → Int → Prop
  | decimal {s ds : List Char} {negative : Bool} {n : Nat} (hs : Sign s negative)
      (h : Digits 10 ds n) : IntegerLiteral (s ++ ds) (if negative then -n else n)
  | radix {cs : List Char} {n : Nat} (h : RadixLiteral cs n) : IntegerLiteral cs n

/-! ## Reading -/

/-- **Every integer literal** is read as what it denotes. -/
theorem IntegerLiteral.integer? {cs : List Char} {b : Int} (h : IntegerLiteral cs b) :
    Literal.integer? cs = some b := by
  cases h with
  | @decimal s ds negative n hs h =>
    obtain ⟨c, rest, hds, hplus, hminus⟩ := h.exists_cons
    have hsign : splitSign (s ++ ds) = (negative, ds) := by
      rw [hds, hs.splitSign_append hplus hminus]
    rw [Literal.integer?, hs.splitRadix?_unsigned h.unsigned, hsign]
    dsimp only
    rw [(natural?_eq_some_iff (by decide)).mpr h]
    rfl
  | radix h =>
    obtain ⟨base, ds, hsplit, hn⟩ := h.splitRadix?
    rw [Literal.integer?, hsplit]
    dsimp only
    rw [hn]
    rfl

/-- **Nothing else** is read. -/
theorem integerLiteral_of_integer? {cs : List Char} {b : Int} (h : integer? cs = some b) :
    IntegerLiteral cs b := by
  rw [integer?] at h
  split at h
  · next base ds hsplit =>
    obtain ⟨_, hcast, rfl⟩ := Option.map_eq_some_iff.mp h
    obtain ⟨n, hn, ⟨⟩⟩ := Option.bind_eq_some_iff.mp hcast
    exact .radix (radixLiteral_of_natural? hsplit hn)
  · obtain ⟨s, hcs, hs⟩ := exists_sign cs
    generalize splitSign cs = p at hcs hs h
    obtain ⟨_, hcast, rfl⟩ := Option.map_eq_some_iff.mp h
    obtain ⟨n, hn, ⟨⟩⟩ := Option.bind_eq_some_iff.mp hcast
    rw [hcs]
    exact .decimal hs ((natural?_eq_some_iff (by decide)).mp hn)

theorem integer?_eq_some_iff {cs : List Char} {b : Int} :
    integer? cs = some b ↔ IntegerLiteral cs b :=
  ⟨integerLiteral_of_integer?, IntegerLiteral.integer?⟩

theorem IntegerLiteral.ne_nil {cs : List Char} {b : Int} (h : IntegerLiteral cs b) : cs ≠ [] := by
  rintro rfl
  cases h.integer?

/-- What reading a text as an integer must give: zero if there is nothing but blanks, otherwise
what the literal between the blanks denotes, and nothing if there is no literal. -/
def ReadsAsInteger (s : String) (r : Option Int) : Prop :=
  ∃ t, Trimmed s.toList t ∧ ∀ b, r = some b ↔ (t = [] ∧ b = 0) ∨ IntegerLiteral t b

theorem stringToBigInt_eq_some_iff {s : String} {b : Int} :
    stringToBigInt s = some b ↔
      (Text.trim s.toList = [] ∧ b = 0) ∨ IntegerLiteral (Text.trim s.toList) b := by
  rw [stringToBigInt]
  generalize Text.trim s.toList = t
  cases t with
  | nil =>
    rw [Option.some_inj]
    constructor
    · intro h
      exact .inl ⟨rfl, h.symm⟩
    · rintro (⟨-, rfl⟩ | h)
      · rfl
      · exact absurd rfl h.ne_nil
  | cons c cs =>
    dsimp only
    rw [integer?_eq_some_iff]
    constructor
    · exact .inr
    · rintro (⟨h, -⟩ | h)
      · exact absurd h (List.cons_ne_nil _ _)
      · exact h

/-- **An integer in decimal notation** reads back. -/
theorem stringToBigInt_bigIntToString (b : Int) : stringToBigInt (bigIntToString b) = some b := by
  have hdigits := digits_toDigits b.natAbs
  obtain ⟨s, hs, htext⟩ : ∃ s, Sign s (decide (b < 0)) ∧
      bigIntToString b = String.ofList (s ++ Nat.toDigits 10 b.natAbs) := by
    rw [bigIntToString]
    split
    · next hneg => exact ⟨['-'], decide_eq_true hneg ▸ .minus, rfl⟩
    · next hneg => exact ⟨[], decide_eq_false hneg ▸ .absent, rfl⟩
  have hliteral := IntegerLiteral.decimal hs hdigits
  have hvalue : (if decide (b < 0) = true then -(b.natAbs : Int) else b.natAbs) = b := by
    simp only [decide_eq_true_eq]
    omega
  rw [hvalue] at hliteral
  rw [htext, stringToBigInt_eq_some_iff, String.toList_ofList,
    Text.trim_of_forall (hs.not_isBlank_append hdigits.unsigned.isBlank)]
  exact .inr hliteral

/-! ## As a number -/

/-- A double is the one nearest to an integer, ties going to the even one; a zero may have either
sign. -/
def NearestToInteger (b : Int) (x : Double) : Prop :=
  ∃ negative, (b ≠ 0 → negative = decide (b < 0)) ∧ Double.IsNearest negative b.natAbs x

/-- **An integer literal is a numeric literal** with the same value. -/
theorem IntegerLiteral.numericLiteral {cs : List Char} {b : Int} (h : IntegerLiteral cs b) :
    ∃ negative, (b ≠ 0 → negative = decide (b < 0)) ∧
      NumericLiteral cs (.finite negative b.natAbs) := by
  cases h with
  | @decimal s ds negative n hs h =>
    refine ⟨negative, ?_, ?_⟩
    · cases negative with
      | false => exact fun _ => (decide_eq_false (Int.not_lt.mpr (Int.natCast_nonneg n))).symm
      | true =>
        intro hne
        have hneg : -(n : Int) < 0 := by
          rw [if_pos rfl] at hne
          omega
        exact (decide_eq_true hneg).symm
    · have habs : (if negative = true then -(n : Int) else n).natAbs = n := by
        cases negative with
        | false => exact Int.natAbs_natCast n
        | true => exact (Int.natAbs_neg n).trans (Int.natAbs_natCast n)
      rw [habs]
      exact .decimal hs h.unsigned
  | @radix cs n h =>
    refine ⟨false, fun _ => (decide_eq_false (by omega)).symm, ?_⟩
    rw [Int.natAbs_natCast]
    exact .radix h

/-- A text that is an integer is read as the nearest double, if radix literals are. -/
theorem nearestToInteger_readNumber {conversion : Conversion}
    (hdecimal : conversion.RoundsDecimals) {s : String} {b : Int}
    (hnatural : ∀ n, RadixLiteral (Text.trim s.toList) n →
      Double.IsNearest false n (conversion.ofNatural n))
    (h : stringToBigInt s = some b) : NearestToInteger b (readNumber conversion s) := by
  rw [stringToBigInt_eq_some_iff] at h
  rw [readNumber]
  generalize Text.trim s.toList = t at h hnatural
  rcases h with ⟨rfl, rfl⟩ | h
  · refine ⟨false, fun hne => absurd rfl hne, Decimal.isNearest_zero (Nat.cast_nonneg _) ?_⟩
    rw [Int.natAbs_zero, Nat.cast_zero]
    exact zpow_pos (by norm_num) _
  · obtain ⟨negative, hsign, hnumeric⟩ := h.numericLiteral
    obtain ⟨c, cs, rfl⟩ := List.exists_cons_of_ne_nil h.ne_nil
    exact ⟨negative, hsign, hnumeric.rounds hdecimal hnatural⟩

/-- **Integer literals are read by the grammar**, and exactly. Every integer reads back from its
decimal notation. And what is read as an integer is read as a number too, as the double nearest
to that integer: with any conversion that rounds to the nearest double, and with the standard one
as long as radix literals have at most 128 bits. -/
theorem integers_read_by_grammar :
    (∀ s, ReadsAsInteger s (stringToBigInt s)) ∧
      (∀ b, stringToBigInt (bigIntToString b) = some b) ∧
      (∀ conversion : Conversion, conversion.Rounds → ∀ s b, stringToBigInt s = some b →
        NearestToInteger b (readNumber conversion s)) ∧
      ∀ s b, stringToBigInt s = some b →
        (∀ n, RadixLiteral (Text.trim s.toList) n → n < 2 ^ 128) →
          NearestToInteger b (stringToNumber s) := by
  refine ⟨?_, stringToBigInt_bigIntToString, ?_, ?_⟩
  · intro s
    exact ⟨_, Text.trimmed_trim _, fun b => stringToBigInt_eq_some_iff⟩
  · intro conversion hrounds s b h
    exact nearestToInteger_readNumber hrounds.decimals (fun n _ => hrounds.naturals n) h
  · intro s b h hsize
    exact nearestToInteger_readNumber roundsDecimals_standard
      (fun n hn => Double.isNearest_toLeadingWord (hsize n hn)) h

/-- A radix literal among blanks, and a negative zero. -/
theorem integers_read_by_grammar_at_literals :
    stringToBigInt " 0x1F" = some 31 ∧
      NearestToInteger 31 (readNumber ⟨Conversion.standard.ofDecimal, Double.ofNat⟩ " 0x1F") ∧
      stringToBigInt "-0\n" = some 0 ∧ NearestToInteger 0 (stringToNumber "-0\n") := by
  have hconversion : Conversion.Rounds ⟨Conversion.standard.ofDecimal, Double.ofNat⟩ :=
    ⟨fun text q h => roundsDecimals_standard text q h, Double.isNearest_ofNat⟩
  have hradix : stringToBigInt " 0x1F" = some 31 := by decide
  have hzero : stringToBigInt "-0\n" = some 0 := by decide
  refine ⟨hradix, integers_read_by_grammar.2.2.1 _ hconversion _ _ hradix, hzero,
    integers_read_by_grammar.2.2.2 _ _ hzero ?_⟩
  intro n h
  have htrim : Text.trim "-0\n".toList = "-0".toList := by decide
  rw [htrim] at h
  cases h

end Ecma.Literal
