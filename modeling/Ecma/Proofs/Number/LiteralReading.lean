import Mathlib.Data.Bool.AllAny
import Mathlib.Tactic.LinearCombination
import Ecma.Proofs.Number.Grammar
import Ecma.Proofs.Number.LeadingWord

/-!
# Numeric literals are read by the rules

Reading a text takes the blanks off, decides which kind of literal it may be, checks it
while cutting it into pieces, and brings a decimal literal into a normal form before it is
converted. All of this comes to the grammar: the normal form of a decimal literal denotes
the same number (`Unsigned.normalize?`), and only decimal literals have one
(`unsigned_of_normalize?`).

So whatever the conversion is, as long as it rounds to the nearest double, the result is
the double nearest to what the literal denotes, and not-a-number if the text is no
literal. The standard conversion does so for all decimals, and for the radix literals of up
to two words.
-/

namespace Ecma.Literal

/-! ## Exponents -/

theorem Exponent.head {e : List Char} {k : Int} (h : Exponent e k) {c : Char}
    (hc : e.head? = some c) : c = 'e' ∨ c = 'E' := by
  cases h with
  | absent => cases hc
  | unsigned hmark _ => exact Option.some.inj hc ▸ hmark
  | plus hmark _ => exact Option.some.inj hc ▸ hmark
  | minus hmark _ => exact Option.some.inj hc ▸ hmark

theorem Exponent.head_not_isDigit {e : List Char} {k : Int} (h : Exponent e k) (c : Char)
    (hc : e.head? = some c) : c.isDigit = false := by
  rcases h.head hc with rfl | rfl <;> rfl

theorem splitDigits_digits {ds : List Char} {n : Nat} (h : Digits 10 ds n) :
    splitDigits ds = (ds, []) := by
  have hsplit := splitDigits_append (r := []) h.isDigit (fun c hc => by cases hc)
  rwa [List.append_nil] at hsplit

/-- A run of digits does not start with a sign. -/
theorem Digits.exists_cons {ds : List Char} {n : Nat} (h : Digits 10 ds n) :
    ∃ c cs, ds = c :: cs ∧ c ≠ '+' ∧ c ≠ '-' := by
  obtain ⟨c, cs, rfl⟩ := List.exists_cons_of_ne_nil h.ne_nil
  have hc := h.isDigit c List.mem_cons_self
  refine ⟨c, cs, rfl, ?_, ?_⟩
  · rintro rfl
    cases hc
  · rintro rfl
    cases hc

theorem spanSign_digits {ds : List Char} {n : Nat} (h : Digits 10 ds n) :
    spanSign ds = ([], ds) := by
  obtain ⟨c, cs, rfl, hplus, hminus⟩ := h.exists_cons
  rw [spanSign, if_neg (by simp [hplus, hminus])]

theorem splitSign_digits {ds : List Char} {n : Nat} (h : Digits 10 ds n) :
    splitSign ds = (false, ds) := by
  obtain ⟨c, cs, rfl, hplus, hminus⟩ := h.exists_cons
  rw [splitSign]
  · rintro _ ⟨rfl, -⟩
    exact hminus rfl
  · rintro _ ⟨rfl, -⟩
    exact hplus rfl

/-- A sign stands first, or none is taken off. -/
theorem spanSign_cases (cs : List Char) :
    (∃ c rest, cs = c :: rest ∧ (c = '+' ∨ c = '-') ∧ spanSign cs = ([c], rest)) ∨
      spanSign cs = ([], cs) := by
  cases cs with
  | nil => exact .inr rfl
  | cons c rest =>
    by_cases hc : c = '+' ∨ c = '-'
    · exact .inl ⟨c, rest, rfl, hc, if_pos hc⟩
    · exact .inr (if_neg hc)

/-- An exponent is cut off whole, and it keeps its power in the normal form. -/
theorem Exponent.splitExponent? {e : List Char} {k : Int} (h : Exponent e k) :
    ∃ part, Literal.splitExponent? e = some (part, []) ∧ Exponent (markExponent part) k := by
  cases h with
  | absent => exact ⟨[], rfl, .absent⟩
  | @unsigned mark ds n hmark h =>
    refine ⟨ds, ?_, ?_⟩
    · rw [Literal.splitExponent?, if_pos hmark, spanSign_digits h]
      dsimp only
      rw [splitDigits_digits h, if_neg h.ne_nil, List.nil_append]
    · rw [markExponent, if_neg h.ne_nil]
      exact .unsigned (.inl rfl) h
  | @plus mark ds n hmark h =>
    refine ⟨'+' :: ds, ?_, .plus (.inl rfl) h⟩
    rw [Literal.splitExponent?, if_pos hmark, spanSign, if_pos (.inl rfl)]
    dsimp only
    rw [splitDigits_digits h, if_neg h.ne_nil]
    rfl
  | @minus mark ds n hmark h =>
    refine ⟨'-' :: ds, ?_, .minus (.inl rfl) h⟩
    rw [Literal.splitExponent?, if_pos hmark, spanSign, if_pos (.inr rfl)]
    dsimp only
    rw [splitDigits_digits h, if_neg h.ne_nil]
    rfl

/-- What is cut off as an exponent: nothing, or the sign and the digits after a mark. -/
theorem splitExponent?_eq_some {cs part rest : List Char}
    (h : splitExponent? cs = some (part, rest)) :
    (part = [] ∧ rest = cs) ∨
      ∃ mark sign ds, cs = mark :: (sign ++ ds ++ rest) ∧ part = sign ++ ds ∧
        (mark = 'e' ∨ mark = 'E') ∧ (sign = [] ∨ sign = ['+'] ∨ sign = ['-']) ∧ ds ≠ [] ∧
        ∀ c ∈ ds, c.isDigit = true := by
  cases cs with
  | nil =>
    obtain ⟨rfl, rfl⟩ := Prod.mk.inj (Option.some.inj h)
    exact .inl ⟨rfl, rfl⟩
  | cons mark cs =>
    rw [splitExponent?] at h
    split at h
    · next hmark =>
      obtain ⟨sign, ds, hspan, hcs, hsign⟩ : ∃ sign ds, spanSign cs = (sign, ds) ∧
          cs = sign ++ ds ∧ (sign = [] ∨ sign = ['+'] ∨ sign = ['-']) := by
        rcases spanSign_cases cs with ⟨c, ds, rfl, hc, hspan⟩ | hspan
        · refine ⟨[c], ds, hspan, rfl, .inr ?_⟩
          rcases hc with rfl | rfl
          · exact .inl rfl
          · exact .inr rfl
        · exact ⟨[], cs, hspan, rfl, .inl rfl⟩
      obtain ⟨hsplit, hdigits⟩ := splitDigits_spec ds
      rw [hspan] at h
      dsimp only at h
      split at h
      · cases h
      · next hne =>
        obtain ⟨rfl, rfl⟩ := Prod.mk.inj (Option.some.inj h)
        refine .inr ⟨mark, sign, _, ?_, rfl, hmark, hsign, hne, hdigits⟩
        rw [List.append_assoc, ← hsplit, hcs]
    · obtain ⟨rfl, rfl⟩ := Prod.mk.inj (Option.some.inj h)
      exact .inl ⟨rfl, rfl⟩

/-- Only an exponent is cut off whole. -/
theorem exists_exponent {r part : List Char} (h : splitExponent? r = some (part, [])) :
    ∃ k, Exponent r k := by
  rcases splitExponent?_eq_some h with
    ⟨-, rfl⟩ | ⟨mark, sign, ds, rfl, -, hmark, hsign, hne, hdigits⟩
  · exact ⟨0, .absent⟩
  · obtain ⟨n, hn⟩ := exists_digits hne hdigits
    rw [List.append_nil]
    rcases hsign with rfl | rfl | rfl
    · exact ⟨_, .unsigned hmark hn⟩
    · exact ⟨_, .plus hmark hn⟩
    · exact ⟨_, .minus hmark hn⟩

theorem Exponent.exponent? {e : List Char} {k : Int} (h : Exponent e k) :
    Literal.exponent? e = some k := by
  have hnatural {ds : List Char} {n : Nat} (h : Digits 10 ds n) : natural? 10 ds = some n :=
    (natural?_eq_some_iff (by decide)).mpr h
  cases h with
  | absent => rfl
  | unsigned hmark h =>
    rw [Literal.exponent?, if_pos hmark, splitSign_digits h]
    dsimp only
    rw [hnatural h]
    rfl
  | plus hmark h =>
    rw [Literal.exponent?, if_pos hmark, splitSign]
    dsimp only
    rw [hnatural h]
    rfl
  | minus hmark h =>
    rw [Literal.exponent?, if_pos hmark, splitSign]
    dsimp only
    rw [hnatural h]
    rfl

/-! ## Normal forms -/

/-- A decimal with digits on both sides of the point and a small mark before the exponent,
and the number that it denotes. -/
inductive Normal : List Char → ℚ → Prop
  | mk {w f e : List Char} {n m : Nat} {k : Int} (hw : Digits 10 w n) (hf : Digits 10 f m)
      (he : Exponent e k) (hmark : ∀ c, e.head? = some c → c = 'e') :
      Normal (w ++ '.' :: (f ++ e)) ((n + m * 10 ^ (-(f.length : Int))) * 10 ^ k)

theorem head_markExponent (part : List Char) (c : Char)
    (h : (markExponent part).head? = some c) : c = 'e' := by
  rw [markExponent] at h
  split at h
  · cases h
  · exact (Option.some.inj h).symm

theorem isDigit_zero : IsDigit 10 '0' 0 := ⟨by decide, .inl rfl⟩

/-- The normal form of a whole number. -/
theorem Normal.ofWhole {w part : List Char} {n : Nat} {k : Int} (hw : Digits 10 w n)
    (he : Exponent (markExponent part) k) :
    Normal (w ++ '.' :: (['0'] ++ markExponent part)) (n * 10 ^ k) := by
  have hnormal := Normal.mk hw (.one isDigit_zero) he (head_markExponent part)
  rwa [Nat.cast_zero, zero_mul, add_zero] at hnormal

/-- A point is taken off with the digits that follow it. -/
theorem splitFraction_cases (cs : List Char) :
    (∃ ds, cs = '.' :: ds ∧ splitFraction cs = splitDigits ds) ∨ splitFraction cs = ([], cs) := by
  unfold splitFraction
  split
  · next ds => exact .inl ⟨ds, rfl, rfl⟩
  · exact .inr rfl

/-- The normal form of a text with a point. -/
theorem normalize?_point {w f e part : List Char} (hw : ∀ c ∈ w, c.isDigit = true)
    (hf : ∀ c ∈ f, c.isDigit = true) (hne : ¬ (w = [] ∧ f = []))
    (hhead : ∀ c, e.head? = some c → c.isDigit = false)
    (he : splitExponent? e = some (part, [])) :
    normalize? (w ++ '.' :: (f ++ e)) =
      some (orZero w ++ '.' :: (orZero f ++ markExponent part)) := by
  have hpoint : splitDigits (w ++ '.' :: (f ++ e)) = (w, '.' :: (f ++ e)) :=
    splitDigits_append hw fun c hc => Option.some.inj hc ▸ rfl
  rw [normalize?, hpoint]
  dsimp only
  rw [splitFraction, splitDigits_append hf hhead]
  dsimp only
  rw [if_neg hne, he]

/-- The normal form of a text without a point. -/
theorem normalize?_whole {w e part : List Char} {n : Nat} {k : Int} (hw : Digits 10 w n)
    (he : Exponent e k) (hpart : splitExponent? e = some (part, [])) :
    normalize? (w ++ e) = some (w ++ '.' :: (['0'] ++ markExponent part)) := by
  have hfraction : splitFraction e = ([], e) := by
    rcases splitFraction_cases e with ⟨ds, rfl, -⟩ | hsame
    · rcases he.head rfl with h | h <;> cases h
    · exact hsame
  rw [normalize?, splitDigits_append hw.isDigit he.head_not_isDigit]
  dsimp only
  rw [hfraction]
  dsimp only
  rw [if_neg (fun h => hw.ne_nil h.1), hpart, orZero, if_neg hw.ne_nil]
  rfl

/-- **A decimal literal has a normal form**, which denotes the same number. -/
theorem Unsigned.normalize? {cs : List Char} {q : ℚ} (h : Unsigned cs q) :
    ∃ text, Literal.normalize? cs = some text ∧ Normal text q := by
  have horZero {ds : List Char} {n : Nat} (hds : Digits 10 ds n) : orZero ds = ds :=
    if_neg hds.ne_nil
  cases h with
  | whole hw he =>
    obtain ⟨part, hpart, hnormal⟩ := he.splitExponent?
    exact ⟨_, normalize?_whole hw he hpart, .ofWhole hw hnormal⟩
  | trailingPoint hw he =>
    obtain ⟨part, hpart, hnormal⟩ := he.splitExponent?
    have hnorm := normalize?_point (f := []) hw.isDigit (fun c hc => by cases hc)
      (fun h => hw.ne_nil h.1) he.head_not_isDigit hpart
    refine ⟨_, hnorm, ?_⟩
    rw [horZero hw]
    exact .ofWhole hw hnormal
  | fraction hw hf he =>
    obtain ⟨part, hpart, hnormal⟩ := he.splitExponent?
    refine ⟨_, normalize?_point hw.isDigit hf.isDigit (fun h => hw.ne_nil h.1)
      he.head_not_isDigit hpart, ?_⟩
    rw [horZero hw, horZero hf]
    exact .mk hw hf hnormal (head_markExponent part)
  | leadingPoint hf he =>
    obtain ⟨part, hpart, hnormal⟩ := he.splitExponent?
    have hnorm := normalize?_point (w := []) (fun c hc => by cases hc) hf.isDigit
      (fun h => hf.ne_nil h.2) he.head_not_isDigit hpart
    have hzero := Normal.mk (.one isDigit_zero) hf hnormal (head_markExponent part)
    rw [Nat.cast_zero, zero_add] at hzero
    refine ⟨_, hnorm, ?_⟩
    rw [horZero hf]
    exact hzero

/-- **Only a decimal literal** has a normal form. -/
theorem unsigned_of_normalize? {cs text : List Char} (h : normalize? cs = some text) :
    ∃ q, Unsigned cs q := by
  obtain ⟨hcs, hwhole⟩ := splitDigits_spec cs
  rw [normalize?] at h
  generalize splitDigits cs = p at *
  obtain ⟨w, r⟩ := p
  dsimp only at *
  subst hcs
  split at h
  · cases h
  · next hne =>
    split at h
    · next part hpart =>
      obtain ⟨k, hk⟩ := exists_exponent hpart
      rcases splitFraction_cases r with ⟨ds, rfl, hr⟩ | hr
      · -- a point: digits on at least one side of it
        obtain ⟨hds, hfraction⟩ := splitDigits_spec ds
        rw [hr] at hne hk
        generalize splitDigits ds = p at *
        obtain ⟨f, e⟩ := p
        dsimp only at *
        subst hds
        rcases eq_or_ne w [] with rfl | hw
        · obtain ⟨m, hm⟩ := exists_digits (fun hf => hne ⟨rfl, hf⟩) hfraction
          exact ⟨_, .leadingPoint hm hk⟩
        · obtain ⟨n, hn⟩ := exists_digits hw hwhole
          rcases eq_or_ne f [] with rfl | hf
          · exact ⟨_, .trailingPoint hn hk⟩
          · obtain ⟨m, hm⟩ := exists_digits hf hfraction
            exact ⟨_, .fraction hn hm hk⟩
      · rw [hr] at hne hk
        obtain ⟨n, hn⟩ := exists_digits (fun hw => hne ⟨hw, rfl⟩) hwhole
        exact ⟨_, .whole hn hk⟩
    · cases h

/-- A normal form is read as the decimal that it denotes. -/
theorem Normal.decimal? {text : List Char} {q : ℚ} (h : Normal text q) :
    ∃ d, Literal.decimal? text = some d ∧ d.value = q := by
  cases h with
  | @mk w f e n m k hw hf he _ =>
    have hpoint : splitDigits (w ++ '.' :: (f ++ e)) = (w, '.' :: (f ++ e)) :=
      splitDigits_append hw.isDigit fun c hc => Option.some.inj hc ▸ rfl
    refine ⟨⟨n * 10 ^ f.length + m, k - f.length⟩, ?_, ?_⟩
    · simp only [Literal.decimal?, hpoint, splitDigits_append hf.isDigit he.head_not_isDigit,
        (natural?_eq_some_iff (by decide)).mpr hw, (natural?_eq_some_iff (by decide)).mpr hf,
        he.exponent?]
      rfl
    · have hten : (10 : ℚ) ≠ 0 := by norm_num
      have hcancel : (10 : ℚ) ^ f.length * 10 ^ (-(f.length : Int)) = 1 := by
        rw [← zpow_natCast, ← zpow_add₀ hten, add_neg_cancel, zpow_zero]
      rw [Decimal.value, sub_eq_add_neg, zpow_add₀ hten]
      push_cast
      linear_combination (n * 10 ^ k : ℚ) * hcancel

/-! ## Literals -/

theorem Unsigned.head {cs : List Char} {q : ℚ} (h : Unsigned cs q) :
    ∃ c rest, cs = c :: rest ∧ (c.isDigit = true ∨ c = '.') := by
  have hdigits {w r : List Char} {n : Nat} (hw : Digits 10 w n) :
      ∃ c rest, w ++ r = c :: rest ∧ (c.isDigit = true ∨ c = '.') := by
    obtain ⟨c, cs, rfl⟩ := List.exists_cons_of_ne_nil hw.ne_nil
    exact ⟨c, cs ++ r, rfl, .inl (hw.isDigit c List.mem_cons_self)⟩
  cases h with
  | whole hw _ => exact hdigits hw
  | trailingPoint hw _ => exact hdigits hw
  | fraction hw _ _ => exact hdigits hw
  | leadingPoint _ _ => exact ⟨_, _, rfl, .inr rfl⟩

/-- The characters of an exponent. -/
theorem Exponent.chars {e : List Char} {k : Int} (h : Exponent e k) :
    ∀ c ∈ e, c.isDigit = true ∨ c ∈ ['.', 'e', 'E', '+', '-'] := by
  have hmarks {mark : Char} (hmark : mark = 'e' ∨ mark = 'E') :
      mark ∈ ['.', 'e', 'E', '+', '-'] := by
    rcases hmark with rfl | rfl <;> decide
  intro c hc
  cases h with
  | absent => cases hc
  | unsigned hmark h =>
    rcases List.mem_cons.mp hc with rfl | hc
    · exact .inr (hmarks hmark)
    · exact .inl (h.isDigit c hc)
  | plus hmark h =>
    rcases List.mem_cons.mp hc with rfl | hc
    · exact .inr (hmarks hmark)
    · rcases List.mem_cons.mp hc with rfl | hc
      · exact .inr (by decide)
      · exact .inl (h.isDigit c hc)
  | minus hmark h =>
    rcases List.mem_cons.mp hc with rfl | hc
    · exact .inr (hmarks hmark)
    · rcases List.mem_cons.mp hc with rfl | hc
      · exact .inr (by decide)
      · exact .inl (h.isDigit c hc)

/-- The characters of a decimal literal. -/
theorem Unsigned.chars {cs : List Char} {q : ℚ} (h : Unsigned cs q) :
    ∀ c ∈ cs, c.isDigit = true ∨ c ∈ ['.', 'e', 'E', '+', '-'] := by
  intro c hc
  cases h with
  | whole hw he =>
    rcases List.mem_append.mp hc with hc | hc
    · exact .inl (hw.isDigit c hc)
    · exact he.chars c hc
  | trailingPoint hw he =>
    rcases List.mem_append.mp hc with hc | hc
    · exact .inl (hw.isDigit c hc)
    · rcases List.mem_cons.mp hc with rfl | hc
      · exact .inr (by decide)
      · exact he.chars c hc
  | fraction hw hf he =>
    rcases List.mem_append.mp hc with hc | hc
    · exact .inl (hw.isDigit c hc)
    · rcases List.mem_cons.mp hc with rfl | hc
      · exact .inr (by decide)
      · rcases List.mem_append.mp hc with hc | hc
        · exact .inl (hf.isDigit c hc)
        · exact he.chars c hc
  | leadingPoint hf he =>
    rcases List.mem_cons.mp hc with rfl | hc
    · exact .inr (by decide)
    · rcases List.mem_append.mp hc with hc | hc
      · exact .inl (hf.isDigit c hc)
      · exact he.chars c hc

/-- The letters that announce a base are those of the table. -/
theorem radix?_eq_some_iff {c : Char} {base : Nat} :
    radix? c = some base ↔ (c, base) ∈ radixMarks := by
  simp only [radix?, radixMarks, List.mem_cons, Prod.mk.injEq, List.not_mem_nil, or_false]
  split
  · next h => rcases h with rfl | rfl <;> simp [eq_comm]
  · next hx =>
    split
    · next h => rcases h with rfl | rfl <;> simp [eq_comm]
    · next ho =>
      split
      · next h => rcases h with rfl | rfl <;> simp [eq_comm]
      · next hb => simp_all

theorem le_of_mem_radixMarks {mark : Char} {base : Nat} (h : (mark, base) ∈ radixMarks) :
    base ≤ 16 := by
  simp only [radixMarks, List.mem_cons, Prod.mk.injEq, List.not_mem_nil, or_false] at h
  omega

/-- A radix literal is cut into its base and its digits. -/
theorem RadixLiteral.splitRadix? {cs : List Char} {n : Nat} (h : RadixLiteral cs n) :
    ∃ base ds, Literal.splitRadix? cs = some (base, ds) ∧ natural? base ds = some n := by
  cases h with
  | @mk mark base ds n hmark h =>
    obtain ⟨d, ds, rfl⟩ := List.exists_cons_of_ne_nil h.ne_nil
    refine ⟨base, d :: ds, ?_, (natural?_eq_some_iff (le_of_mem_radixMarks hmark)).mpr h⟩
    rw [Literal.splitRadix?, radix?_eq_some_iff.mpr hmark, Option.map_some]

theorem splitRadix?_eq_some {cs ds : List Char} {base : Nat}
    (h : splitRadix? cs = some (base, ds)) :
    ∃ mark, cs = '0' :: mark :: ds ∧ (mark, base) ∈ radixMarks := by
  unfold splitRadix? at h
  split at h
  · next mark d ds' =>
    obtain ⟨b, hb, heq⟩ := Option.map_eq_some_iff.mp h
    obtain ⟨rfl, rfl⟩ := Prod.mk.inj heq
    exact ⟨mark, rfl, radix?_eq_some_iff.mp hb⟩
  · cases h

theorem radixLiteral_of_natural? {cs ds : List Char} {base n : Nat}
    (hsplit : splitRadix? cs = some (base, ds)) (hn : natural? base ds = some n) :
    RadixLiteral cs n := by
  obtain ⟨mark, rfl, hmark⟩ := splitRadix?_eq_some hsplit
  exact .mk hmark ((natural?_eq_some_iff (le_of_mem_radixMarks hmark)).mp hn)

/-- A text in which no letter announces a base is not cut. -/
theorem splitRadix?_eq_none {cs : List Char} (h : ∀ c ∈ cs, radix? c = none) :
    splitRadix? cs = none := by
  cases hsplit : splitRadix? cs with
  | none => rfl
  | some p =>
    obtain ⟨mark, rfl, hmark⟩ := splitRadix?_eq_some hsplit
    have hnone := h mark (List.mem_cons_of_mem _ List.mem_cons_self)
    rw [radix?_eq_some_iff.mpr hmark] at hnone
    cases hnone

theorem Sign.splitRadix?_append {s cs : List Char} {negative : Bool} (hs : Sign s negative)
    (h : ∀ c ∈ cs, radix? c = none) : splitRadix? (s ++ cs) = none := by
  refine splitRadix?_eq_none fun c hc => ?_
  rcases List.mem_append.mp hc with hc | hc
  · cases hs with
    | absent => cases hc
    | plus => rw [List.mem_singleton.mp hc]; rfl
    | minus => rw [List.mem_singleton.mp hc]; rfl
  · exact h c hc

/-- A sign is cut off a text that goes on without one. -/
theorem Sign.splitSign_append {s : List Char} {negative : Bool} (hs : Sign s negative) {c : Char}
    (hplus : c ≠ '+') (hminus : c ≠ '-') (cs : List Char) :
    splitSign (s ++ c :: cs) = (negative, c :: cs) := by
  cases hs with
  | absent =>
    rw [List.nil_append, splitSign]
    · rintro _ ⟨rfl, -⟩
      exact hminus rfl
    · rintro _ ⟨rfl, -⟩
      exact hplus rfl
  | plus => rfl
  | minus => rfl

theorem exists_sign (cs : List Char) :
    ∃ s, cs = s ++ (splitSign cs).2 ∧ Sign s (splitSign cs).1 := by
  unfold splitSign
  split
  · exact ⟨['-'], rfl, .minus⟩
  · exact ⟨['+'], rfl, .plus⟩
  · exact ⟨[], rfl, .absent⟩

/-- A double is what a numeral is rounded to. -/
def Numeral.Rounds : Numeral → Double → Prop
  | .finite negative q, x => Double.IsNearest negative q x
  | .infinite negative, x => x = if negative then .negInfinity else .infinity

/-- Normal forms become the nearest double. -/
def Conversion.RoundsDecimals (conversion : Conversion) : Prop :=
  ∀ text q, Normal text q → ∃ x, conversion.ofDecimal text = some x ∧ Double.IsNearest false q x

/-- A decimal literal announces no base. -/
theorem Sign.splitRadix?_unsigned {s cs : List Char} {negative : Bool} {q : ℚ}
    (hs : Sign s negative) (h : Unsigned cs q) : splitRadix? (s ++ cs) = none := by
  refine hs.splitRadix?_append fun c hc => ?_
  rcases h.chars c hc with hdigit | hmark
  · rw [radix?, if_neg, if_neg, if_neg] <;> rintro (rfl | rfl) <;> cases hdigit
  · have hall : ∀ c ∈ ['.', 'e', 'E', '+', '-'], radix? c = none :=
      List.all_iff_forall_prop.mp (by decide)
    exact hall c hmark

/-- **A decimal literal** is read as the double nearest to what it denotes. -/
theorem isNearest_number {conversion : Conversion} (hdecimal : conversion.RoundsDecimals)
    {s cs : List Char} {negative : Bool} {q : ℚ} (hs : Sign s negative) (h : Unsigned cs q) :
    Double.IsNearest negative q (number conversion (s ++ cs)) := by
  obtain ⟨c, rest, hcs, hc⟩ := h.head
  have hne : c ≠ '+' ∧ c ≠ '-' ∧ c ≠ 'I' := by
    refine ⟨?_, ?_, ?_⟩ <;> rintro rfl <;> rcases hc with hc | hc <;> cases hc
  have hinfinity : cs ≠ "Infinity".toList := by
    rintro rfl
    exact hne.2.2 (List.cons.inj hcs).1.symm
  have hsign : splitSign (s ++ cs) = (negative, cs) := by
    rw [hcs, hs.splitSign_append hne.1 hne.2.1]
  obtain ⟨text, htext, hnormal⟩ := h.normalize?
  obtain ⟨x, hx, hnearest⟩ := hdecimal text q hnormal
  have hnumber : number conversion (s ++ cs) = Double.withSign negative x := by
    rw [number, hs.splitRadix?_unsigned h, hsign]
    dsimp only
    rw [if_neg hinfinity, htext]
    dsimp only
    rw [hx, Option.getD_some]
  rw [hnumber]
  exact hnearest.withSign negative

theorem number_infinity (conversion : Conversion) {s : List Char} {negative : Bool}
    (hs : Sign s negative) : number conversion (s ++ "Infinity".toList) =
      if negative then .negInfinity else .infinity := by
  have hradix : splitRadix? (s ++ "Infinity".toList) = none :=
    hs.splitRadix?_append (List.all_iff_forall_prop.mp (by decide))
  have hsign : splitSign (s ++ "Infinity".toList) = (negative, "Infinity".toList) :=
    hs.splitSign_append (c := 'I') (by decide) (by decide) "nfinity".toList
  rw [number, hradix, hsign]
  dsimp only
  rw [if_pos rfl]
  cases negative <;> rfl

/-- **A literal** is read as the double nearest to what it denotes. -/
theorem NumericLiteral.rounds {conversion : Conversion} (hdecimal : conversion.RoundsDecimals)
    {cs : List Char} {v : Numeral} (h : NumericLiteral cs v)
    (hnatural : ∀ n, RadixLiteral cs n → Double.IsNearest false n (conversion.ofNatural n)) :
    v.Rounds (number conversion cs) := by
  cases h with
  | decimal hs h => exact isNearest_number hdecimal hs h
  | infinity hs => exact number_infinity conversion hs
  | radix h =>
    obtain ⟨base, ds, hsplit, hn⟩ := h.splitRadix?
    rw [number, hsplit]
    dsimp only
    rw [hn]
    exact hnatural _ h

/-- **Anything else** is read as not-a-number. -/
theorem number_eq_nan (conversion : Conversion) {cs : List Char}
    (h : ∀ v, ¬ NumericLiteral cs v) : number conversion cs = .nan := by
  rw [number]
  split
  · next base ds hsplit =>
    split
    · next n hn => exact absurd (.radix (radixLiteral_of_natural? hsplit hn)) (h _)
    · rfl
  · obtain ⟨s, hcs, hs⟩ := exists_sign cs
    generalize splitSign cs = p at hcs hs
    obtain ⟨negative, body⟩ := p
    dsimp only at *
    subst hcs
    split
    · next hbody =>
      subst hbody
      exact absurd (.infinity hs) (h _)
    · split
      · next text htext =>
        obtain ⟨q, hq⟩ := unsigned_of_normalize? htext
        exact absurd (.decimal hs hq) (h _)
      · rfl

/-! ## Pieces -/

/-- Characters of one byte each, so that counting them is counting bytes. -/
def OneByte (cs : List Char) : Prop := ∀ c ∈ cs, c.utf8Size = 1

/-- Reading cuts a text only inside it, and only after characters of one byte: the pieces
of every cut, one after the other, are the text. -/
structure CutsInside (cs : List Char) : Prop where
  radix : ∀ base ds, splitRadix? cs = some (base, ds) →
    ∃ mark, cs = ['0', mark] ++ ds ∧ OneByte ['0', mark]
  sign : ∃ sign, cs = sign ++ (splitSign cs).2 ∧ OneByte sign
  digits : cs = (splitDigits cs).1 ++ (splitDigits cs).2 ∧ OneByte (splitDigits cs).1
  fraction : ∃ point, cs = point ++ (splitFraction cs).1 ++ (splitFraction cs).2 ∧
    OneByte (point ++ (splitFraction cs).1)
  exponent : ∀ part rest, splitExponent? cs = some (part, rest) →
    ∃ mark, cs = mark ++ part ++ rest ∧ OneByte (mark ++ part)

theorem oneByte_of_all {cs : List Char} (h : cs.all fun c => c.utf8Size = 1) : OneByte cs :=
  List.all_iff_forall_prop.mp h

theorem oneByte_of_isDigit {cs : List Char} (h : ∀ c ∈ cs, c.isDigit = true) : OneByte cs := by
  intro c hc
  have hle := ((isDigit_iff c).mp (h c hc)).2
  have hval : c.val ≤ 127 := by
    rw [UInt32.le_iff_toNat_le]
    exact hle.trans (by decide)
  rw [Char.utf8Size]
  exact if_pos hval

theorem OneByte.append {cs ds : List Char} (hcs : OneByte cs) (hds : OneByte ds) :
    OneByte (cs ++ ds) := by
  intro c hc
  rcases List.mem_append.mp hc with hc | hc
  · exact hcs c hc
  · exact hds c hc

theorem cutsInside (cs : List Char) : CutsInside cs := by
  have hdigits (ds : List Char) : OneByte (splitDigits ds).1 :=
    oneByte_of_isDigit (splitDigits_spec ds).2
  refine ⟨?_, ?_, ⟨(splitDigits_spec cs).1, hdigits cs⟩, ?_, ?_⟩
  · intro base ds h
    obtain ⟨mark, rfl, hmark⟩ := splitRadix?_eq_some h
    refine ⟨mark, rfl, ?_⟩
    simp only [radixMarks, List.mem_cons, Prod.mk.injEq, List.not_mem_nil, or_false] at hmark
    rcases hmark with ⟨rfl, -⟩ | ⟨rfl, -⟩ | ⟨rfl, -⟩ | ⟨rfl, -⟩ | ⟨rfl, -⟩ | ⟨rfl, -⟩ <;>
      exact oneByte_of_all (by decide)
  · obtain ⟨s, hcs, hs⟩ := exists_sign cs
    refine ⟨s, hcs, ?_⟩
    generalize (splitSign cs).1 = negative at hs
    cases hs <;> exact oneByte_of_all (by decide)
  · rcases splitFraction_cases cs with ⟨ds, rfl, hsplit⟩ | hsplit
    · refine ⟨['.'], ?_, ?_⟩ <;> rw [hsplit]
      · rw [List.append_assoc, ← (splitDigits_spec ds).1]
        rfl
      · exact OneByte.append (oneByte_of_all (by decide)) (hdigits ds)
    · rw [hsplit]
      exact ⟨[], rfl, fun c hc => by cases hc⟩
  · intro part rest h
    rcases splitExponent?_eq_some h with
      ⟨rfl, rfl⟩ | ⟨mark, sign, ds, rfl, rfl, hmark, hsign, -, hds⟩
    · exact ⟨[], rfl, fun c hc => by cases hc⟩
    · refine ⟨[mark], rfl, ?_⟩
      have hbyte : OneByte [mark] := by
        rcases hmark with rfl | rfl <;> exact oneByte_of_all (by decide)
      have hbyte' : OneByte sign := by
        rcases hsign with rfl | rfl | rfl <;> exact oneByte_of_all (by decide)
      exact hbyte.append (hbyte'.append (oneByte_of_isDigit hds))

/-! ## Texts -/

/-- What reading a text must give: zero if there is nothing but blanks, otherwise the
double nearest to what the literal between the blanks denotes, and not-a-number if there
is no literal. -/
def ReadsAs (s : String) (x : Double) : Prop :=
  ∃ t, Trimmed s.toList t ∧ (t = [] → x = .zero) ∧ (∀ v, NumericLiteral t v → v.Rounds x) ∧
    (t ≠ [] → (∀ v, ¬ NumericLiteral t v) → x = .nan)

/-- A conversion that rounds to the nearest double. -/
structure Conversion.Rounds (conversion : Conversion) : Prop where
  decimals : conversion.RoundsDecimals
  naturals : ∀ n : Nat, Double.IsNearest false n (conversion.ofNatural n)

theorem roundsDecimals_standard : Conversion.standard.RoundsDecimals := by
  intro text q h
  obtain ⟨d, hd, rfl⟩ := h.decimal?
  refine ⟨d.toDouble, ?_, d.isNearest_toDouble⟩
  change (Literal.decimal? text).map Decimal.toDouble = _
  rw [hd, Option.map_some]

theorem NumericLiteral.ne_nil {cs : List Char} {v : Numeral} (h : NumericLiteral cs v) :
    cs ≠ [] := by
  cases h with
  | decimal hs h =>
    obtain ⟨c, rest, rfl, -⟩ := h.head
    exact List.append_ne_nil_of_right_ne_nil _ (List.cons_ne_nil _ _)
  | infinity hs => exact List.append_ne_nil_of_right_ne_nil _ (by decide)
  | radix h =>
    cases h
    exact List.cons_ne_nil _ _

/-- A text is read by the rules if the literal in it is converted as it should be. -/
theorem readsAs_readNumber {conversion : Conversion} (hdecimal : conversion.RoundsDecimals)
    (s : String) (hnatural : ∀ n, RadixLiteral (Text.trim s.toList) n →
      Double.IsNearest false n (conversion.ofNatural n)) :
    ReadsAs s (readNumber conversion s) := by
  refine ⟨Text.trim s.toList, Text.trimmed_trim _, ?_⟩
  rw [readNumber]
  generalize Text.trim s.toList = t at hnatural
  cases t with
  | nil => exact ⟨fun _ => rfl, fun v hv => absurd rfl hv.ne_nil, fun hne => absurd rfl hne⟩
  | cons c cs =>
    exact ⟨fun h => absurd h (List.cons_ne_nil _ _), fun v hv => hv.rounds hdecimal hnatural,
      fun _ h => number_eq_nan conversion h⟩

/-- **Numeric literals are read by the grammar.** With any conversion that rounds to the
nearest double, every text is read as the grammar of literals says. The standard conversion
need not be trusted for that as long as radix literals have at most 128 bits. And whatever
the text is, it is cut only inside. -/
theorem texts_read_by_grammar :
    (∀ conversion : Conversion, conversion.Rounds → ∀ s, ReadsAs s (readNumber conversion s)) ∧
      (∀ s, (∀ n, RadixLiteral (Text.trim s.toList) n → n < 2 ^ 128) →
        ReadsAs s (stringToNumber s)) ∧
      ∀ cs, CutsInside cs := by
  refine ⟨?_, ?_, cutsInside⟩
  · intro conversion h s
    exact readsAs_readNumber h.decimals s fun n _ => h.naturals n
  · intro s h
    exact readsAs_readNumber roundsDecimals_standard s fun n hn =>
      Double.isNearest_toLeadingWord (h n hn)

/-- Rounding natural numbers of any size to the nearest double is such a conversion, and a
text without a zero at its start holds no radix literal. -/
theorem texts_read_by_grammar_at_literals :
    ReadsAs " 0x1F" (readNumber ⟨Conversion.standard.ofDecimal, Double.ofNat⟩ " 0x1F") ∧
      ReadsAs "-.5e1\n" (stringToNumber "-.5e1\n") ∧ CutsInside "0b12".toList := by
  have hconversion : Conversion.Rounds ⟨Conversion.standard.ofDecimal, Double.ofNat⟩ :=
    ⟨fun text q h => roundsDecimals_standard text q h, Double.isNearest_ofNat⟩
  refine ⟨texts_read_by_grammar.1 _ hconversion _, texts_read_by_grammar.2.1 _ ?_,
    texts_read_by_grammar.2.2 _⟩
  intro n h
  have htrim : Text.trim "-.5e1\n".toList = "-.5e1".toList := by decide
  rw [htrim] at h
  cases h

end Ecma.Literal
