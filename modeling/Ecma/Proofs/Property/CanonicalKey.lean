import Mathlib.Data.String.Basic
import Ecma.Object.Basic
import Ecma.Proofs.Number.RoundTrip

/-!
# Every text has a key of its own

A `PlainNumeral` is a run of decimal digits without a zero in front of others. Every natural
number has exactly one, and it is the text that is written for it (`plainNumeral_iff`).
Reading an integer key accepts the plain numerals of the integer keys and no other text
(`parseIndex_eq_some_iff`). Sixteen digits are enough for them, so nothing is lost by not
looking at longer texts, and the digits of a text that is looked at never exceed 64 bits.

So the key of a text can be turned back into the text, and texts with the same key are the
same (`property_keys_canonical`).
-/

namespace Ecma

namespace Literal

/-! ## Numerals -/

/-- The decimal digits of a number, without a sign and without a zero in front of others. -/
def PlainNumeral (cs : List Char) (n : Nat) : Prop :=
  Digits 10 cs n ∧ (cs.head? = some '0' → cs = ['0'])

theorem eq_digitChar_of_isDigit {c : Char} {d : Nat} (h : IsDigit 10 c d) :
    c = Nat.digitChar d := by
  obtain ⟨hd, hc⟩ := h
  interval_cases d <;> rcases hc with hc | hc <;> cases hc <;> rfl

/-- One more digit behind those of a positive number. -/
theorem toDigits_mul_add {n d : Nat} (hn : 0 < n) (hd : d < 10) :
    Nat.toDigits 10 (n * 10 + d) = Nat.toDigits 10 n ++ [Nat.digitChar d] := by
  have hdiv : (n * 10 + d) / 10 = n := by omega
  have hmod : (n * 10 + d) % 10 = d := by omega
  rw [Nat.toDigits_eq_if (by decide), if_neg (by omega), hdiv, hmod]

/-- Only zero is written with a zero in front. -/
theorem eq_zero_of_head?_toDigits {n : Nat} (h : (Nat.toDigits 10 n).head? = some '0') :
    n = 0 := by
  induction n using Nat.strongRecOn with
  | _ n ih =>
    rw [Nat.toDigits_eq_if (by decide)] at h
    split at h
    · next hlt =>
      have hchar : Nat.digitChar n = '0' := Option.some.inj h
      interval_cases n
      · rfl
      all_goals cases hchar
    · next hge =>
      -- the first digit is that of the number without its last digit
      rw [List.head?_append_of_ne_nil _ (digits_toDigits (n / 10)).ne_nil] at h
      have hzero := ih (n / 10) (by omega) h
      omega

theorem plainNumeral_toDigits (n : Nat) : PlainNumeral (Nat.toDigits 10 n) n := by
  refine ⟨digits_toDigits n, fun h => ?_⟩
  rw [eq_zero_of_head?_toDigits h]
  rfl

/-- A number has no other plain numeral than its digits. -/
theorem PlainNumeral.eq_toDigits {cs : List Char} {n : Nat} (h : PlainNumeral cs n) :
    cs = Nat.toDigits 10 n := by
  obtain ⟨hdigits, hhead⟩ := h
  induction hdigits with
  | one hc =>
    rw [eq_digitChar_of_isDigit hc, Nat.toDigits_of_lt_base hc.1]
  | @more cs n c d hcs hc ih =>
    rw [List.head?_append_of_ne_nil _ hcs.ne_nil] at hhead
    -- with more than one digit a zero may not be the first of them
    have hne : cs.head? ≠ some '0' := by
      intro hzero
      have hlength := congrArg List.length (hhead hzero)
      rw [List.length_append, List.length_singleton, List.length_singleton] at hlength
      exact hcs.ne_nil (List.length_eq_zero_iff.mp (by omega))
    have hrest := ih fun hzero => absurd hzero hne
    have hpos : 0 < n := by
      refine Nat.pos_of_ne_zero fun hzero => hne ?_
      rw [hrest, hzero]
      rfl
    rw [toDigits_mul_add hpos hc.1, ← hrest, eq_digitChar_of_isDigit hc]

theorem toList_toString (n : Nat) : (toString n).toList = Nat.toDigits 10 n := by
  rw [Nat.toString_eq_repr, Nat.toList_repr]

/-- **Plain numerals.** A natural number is written as its plain numeral. -/
theorem plainNumeral_iff {s : String} {n : Nat} :
    PlainNumeral s.toList n ↔ s = toString n := by
  rw [← String.toList_inj, toList_toString]
  constructor
  · intro h
    exact h.eq_toDigits
  · intro h
    rw [h]
    exact plainNumeral_toDigits n

/-- Digits denote less than the power of ten with one place more. -/
theorem Digits.lt_pow {cs : List Char} {n : Nat} (h : Digits 10 cs n) : n < 10 ^ cs.length := by
  induction h with
  | one h => simpa using h.1
  | more hcs h ih =>
    have hd := h.1
    rw [List.length_append, List.length_singleton, Nat.pow_succ]
    omega

end Literal

/-! ## Reading integer keys -/

/-- A decimal digit is worth its distance from zero. -/
theorem Literal.digitIn?_ten (c : Char) :
    digitIn? 10 c = if c.isDigit then some (c.toNat - '0'.toNat) else none := by
  split
  · next hc =>
    obtain ⟨d, hd⟩ := exists_isDigit hc
    have hvalue : c.toNat = 48 + d := by
      rw [eq_digitChar_of_isDigit hd, Nat.toNat_digitChar_of_lt_ten hd.1]
    rw [(digitIn?_eq_some_iff (by decide)).mpr hd, hvalue]
    exact congrArg some (Nat.add_sub_cancel_left 48 d).symm
  · next hc =>
    refine Option.eq_none_iff_forall_ne_some.mpr fun d hd => hc ?_
    exact isDigit_of_isDigit ((digitIn?_eq_some_iff (by decide)).mp hd)

theorem readDigits_eq (acc : Nat) (cs : List Char) :
    readDigits acc cs = Literal.readBase 10 acc cs := by
  induction cs generalizing acc with
  | nil => rfl
  | cons c cs ih =>
    rw [readDigits, Literal.readBase, Literal.digitIn?_ten]
    split
    · exact ih _
    · rfl

/-- Digits are read as the number that they denote. -/
theorem readDigits_eq_some_iff {cs : List Char} (hcs : cs ≠ []) {n : Nat} :
    readDigits 0 cs = some n ↔ Literal.Digits 10 cs n := by
  rw [readDigits_eq, ← Literal.natural?_of_ne_nil 10 hcs, Literal.natural?_eq_some_iff (by decide)]

/-- A text has at least as many bytes as characters. -/
theorem length_toList_le_utf8ByteSize (s : String) : s.toList.length ≤ s.utf8ByteSize := by
  have hlen (cs : List Char) : cs.length ≤ String.utf8Len cs := by
    induction cs with
    | nil => exact Nat.le_refl 0
    | cons c cs ih =>
      have hc := c.utf8Size_pos
      rw [List.length_cons, String.utf8Len]
      omega
  rw [← String.ofList_toList (s := s), String.utf8ByteSize_ofList, String.toList_ofList]
  exact hlen s.toList

/-- A text of characters of one byte has as many bytes as characters. -/
theorem Literal.OneByte.utf8ByteSize {s : String} (h : OneByte s.toList) :
    s.utf8ByteSize = s.toList.length := by
  have hlen {cs : List Char} (hcs : OneByte cs) : String.utf8Len cs = cs.length := by
    induction cs with
    | nil => rfl
    | cons c cs ih =>
      rw [String.utf8Len, ih fun d hd => hcs d (List.mem_cons_of_mem c hd),
        hcs c List.mem_cons_self, List.length_cons]
  rw [← hlen h, ← String.utf8ByteSize_ofList, String.ofList_toList]

/-- The numeral of an integer key is short enough to be looked at. -/
theorem utf8ByteSize_toString_le {n : Nat} (h : n < maxLength) :
    (toString n).utf8ByteSize ≤ maxIndexDigits := by
  have hdigits := Literal.digits_toDigits n
  rw [← Literal.toList_toString] at hdigits
  rw [(Literal.oneByte_of_isDigit hdigits.isDigit).utf8ByteSize, Literal.toList_toString]
  refine (Nat.length_toDigits_le_iff (by decide) (by decide)).mpr ?_
  exact h.trans (by decide)

/-- Apart from the cut by length, a text is read as its characters stand. -/
theorem parseIndex_of_le {s : String} (h : s.utf8ByteSize ≤ maxIndexDigits) {n : Nat} :
    parseIndex s = some n ↔ n < maxLength ∧ Literal.PlainNumeral s.toList n := by
  rw [parseIndex, if_neg (Nat.not_lt.mpr h)]
  split
  · next hnil =>
    rw [hnil]
    constructor
    · nofun
    · rintro ⟨-, hnumeral⟩
      exact absurd rfl hnumeral.1.ne_nil
  · next hzero =>
    rw [hzero]
    constructor
    · rintro ⟨⟩
      exact ⟨by decide, Literal.plainNumeral_toDigits 0⟩
    · rintro ⟨-, hnumeral⟩
      exact congrArg some ((Literal.digits_toDigits 0).unique (by decide) hnumeral.1)
  · next cs hne hzero =>
    rw [hzero]
    constructor
    · nofun
    · rintro ⟨-, hnumeral⟩
      obtain rfl := (List.cons.inj (hnumeral.2 rfl)).2
      exact absurd rfl hne
  · next cs hnil _ hzero =>
    have hhead : ¬ s.toList.head? = some '0' := by
      intro hhead
      obtain ⟨rest, hrest⟩ := List.head?_eq_some_iff.mp hhead
      exact hzero rest hrest
    rw [Option.filter_eq_some_iff, readDigits_eq_some_iff hnil, isIndex, decide_eq_true_eq,
      and_comm, Literal.PlainNumeral]
    simp only [hhead, false_implies, and_true]

/-- **Integer keys** are read from their plain numerals and from no other text. -/
theorem parseIndex_eq_some_iff {s : String} {n : Nat} :
    parseIndex s = some n ↔ n < maxLength ∧ Literal.PlainNumeral s.toList n := by
  rcases Nat.lt_or_ge maxIndexDigits s.utf8ByteSize with hlong | hshort
  · rw [parseIndex, if_pos hlong]
    constructor
    · nofun
    · -- no integer key has a numeral that long
      rintro ⟨hn, hnumeral⟩
      rw [Literal.plainNumeral_iff.mp hnumeral] at hlong
      exact absurd (utf8ByteSize_toString_le hn) (Nat.not_le.mpr hlong)
  · exact parseIndex_of_le hshort

/-- What is read from the start of a text that is short enough fits 64 bits. -/
theorem readDigits_lt {s : String} (hs : s.utf8ByteSize ≤ maxIndexDigits) {cs : List Char}
    (hcs : cs <+: s.toList) {n : Nat} (h : readDigits 0 cs = some n) : n < 2 ^ 64 := by
  rcases eq_or_ne cs [] with rfl | hne
  · obtain rfl : 0 = n := Option.some.inj h
    decide
  · have hlength : cs.length ≤ 16 :=
      hcs.length_le.trans ((length_toList_le_utf8ByteSize s).trans hs)
    calc n < 10 ^ cs.length := ((readDigits_eq_some_iff hne).mp h).lt_pow
      _ ≤ 10 ^ 16 := Nat.pow_le_pow_right (by decide) hlength
      _ < 2 ^ 64 := by decide

namespace PropertyKey

/-! ## Keys of texts -/

/-- The key of a text, as a value, is the text. -/
theorem toValue_ofString (s : String) : (ofString s).toValue = .string s := by
  rw [ofString]
  split
  · next n hn =>
    obtain ⟨-, hnumeral⟩ := parseIndex_eq_some_iff.mp hn
    rw [toValue, Literal.plainNumeral_iff.mp hnumeral]
  · rfl

theorem ofString_injective : Function.Injective ofString := by
  intro s t h
  have hvalue := congrArg toValue h
  rw [toValue_ofString, toValue_ofString] at hvalue
  exact Value.string.inj hvalue

/-- The key of a number is that of its numeral, also beyond the integer keys. -/
theorem ofString_toString (n : Nat) : ofString (toString n) = ofNat n := by
  have hnumeral : Literal.PlainNumeral (toString n).toList n := Literal.plainNumeral_iff.mpr rfl
  rw [ofNat, ofString]
  split
  · next m hm =>
    obtain ⟨hlt, hother⟩ := parseIndex_eq_some_iff.mp hm
    obtain rfl := hnumeral.1.unique (by decide) hother.1
    exact (if_pos (decide_eq_true hlt)).symm
  · next hnone =>
    rw [if_neg]
    intro hindex
    rw [parseIndex_eq_some_iff.mpr ⟨of_decide_eq_true hindex, hnumeral⟩] at hnone
    cases hnone

/-- **Property keys are canonical.** An integer key is read from a text exactly if the text
is the plain numeral of a number below `2 ^ 53 - 1`, which is how that number is written;
what is read on the way fits 64 bits. A number and its numeral have the same key, beyond
the integer keys too. A key gives its text back, so texts have different keys, and a
property that is stored under one text is found under that text alone. -/
theorem property_keys_canonical :
    (∀ (s : String) (n : Nat),
        parseIndex s = some n ↔ n < 2 ^ 53 - 1 ∧ Literal.PlainNumeral s.toList n) ∧
      (∀ (s : String) (n : Nat), Literal.PlainNumeral s.toList n ↔ s = toString n) ∧
      (∀ s : String, s.utf8ByteSize ≤ maxIndexDigits → ∀ (cs : List Char) (n : Nat),
        cs <+: s.toList → readDigits 0 cs = some n → n < 2 ^ 64) ∧
      (∀ n : Nat, ofNat n = ofString (toString n)) ∧
      Function.Injective ofString ∧
      (∀ s : String, (ofString s).toValue = .string s) ∧
      ∀ (o : Object) (s t : String) (p : Property),
        (o.put (ofString s) p).own? (ofString t) =
          if t = s then some p else o.own? (ofString t) := by
  refine ⟨fun s n => parseIndex_eq_some_iff, fun s n => Literal.plainNumeral_iff,
    fun s hs cs n hcs => readDigits_lt hs hcs, fun n => (ofString_toString n).symm,
    ofString_injective, toValue_ofString, ?_⟩
  intro o s t p
  rw [Object.own?_put]
  simp only [ofString_injective.eq_iff]

/-- The last integer key and the first number that is none. A text of sixteen bytes is
short enough to be looked at, and its digits fit 64 bits. -/
theorem property_keys_canonical_at_bounds :
    parseIndex "9007199254740990" = some 9007199254740990 ∧
      ofString "9007199254740991" = .string "9007199254740991" ∧
      "9999999999999999".utf8ByteSize ≤ maxIndexDigits ∧
      (∀ n, readDigits 0 "9999999999999999".toList = some n → n < 2 ^ 64) ∧
      ofString "07" ≠ ofString "7" := by
  obtain ⟨hparse, hnumeral, hfits, hnat, hinjective, -, -⟩ := property_keys_canonical
  have hsize : "9999999999999999".utf8ByteSize ≤ maxIndexDigits := by decide +kernel
  refine ⟨?_, ?_, hsize, fun n => hfits _ hsize _ n (List.prefix_refl _), ?_⟩
  · exact (hparse _ _).mpr ⟨by decide, (hnumeral _ _).mpr (by decide)⟩
  · exact (hnat 9007199254740991).symm
  · intro h
    exact absurd (hinjective h) (by decide)

end PropertyKey

end Ecma
