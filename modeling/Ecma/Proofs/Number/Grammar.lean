import Mathlib.Algebra.Order.Field.Rat
import Mathlib.Data.List.Induction
import Mathlib.Data.List.TakeWhile
import Mathlib.Data.Rat.Cast.Defs
import Mathlib.Tactic.IntervalCases
import Mathlib.Tactic.Ring
import Ecma.Number.Literal

/-!
# The grammar of numeric literals

What a numeric literal is and which number it denotes, rule by rule, without a word on
how it is read. `Digits` are the runs of digits of a base, `Exponent` is nothing or a mark
with a signed integer, `Unsigned` are decimal literals without their sign, and
`NumericLiteral` are all literals; each comes with its exact value. A `Blank` is white
space or ends a line.

The second half says of the functions that read digits and take blanks off that they follow
these rules: `natural?_eq_some_iff`, `splitDigits_append`, `trimmed_trim`.
-/

namespace Ecma

namespace Literal

/-! ## Rules -/

/-- A character is a digit of a base, with a value; letters go on after nine, in either
case. -/
def IsDigit (base : Nat) (c : Char) (d : Nat) : Prop :=
  d < base ∧ ("0123456789abcdef".toList[d]? = some c ∨ "0123456789ABCDEF".toList[d]? = some c)

/-- One or more digits of a base, and the number that they denote. -/
inductive Digits (base : Nat) : List Char → Nat → Prop
  | one {c : Char} {d : Nat} (h : IsDigit base c d) : Digits base [c] d
  | more {cs : List Char} {n : Nat} {c : Char} {d : Nat} (hcs : Digits base cs n)
      (h : IsDigit base c d) : Digits base (cs ++ [c]) (n * base + d)

/-- An exponent, which may be absent, and the power that it denotes. -/
inductive Exponent : List Char → Int → Prop
  | absent : Exponent [] 0
  | unsigned {mark : Char} {ds : List Char} {n : Nat} (hmark : mark = 'e' ∨ mark = 'E')
      (h : Digits 10 ds n) : Exponent (mark :: ds) n
  | plus {mark : Char} {ds : List Char} {n : Nat} (hmark : mark = 'e' ∨ mark = 'E')
      (h : Digits 10 ds n) : Exponent (mark :: '+' :: ds) n
  | minus {mark : Char} {ds : List Char} {n : Nat} (hmark : mark = 'e' ∨ mark = 'E')
      (h : Digits 10 ds n) : Exponent (mark :: '-' :: ds) (-n)

/-- A decimal literal without a sign, and the number that it denotes. -/
inductive Unsigned : List Char → ℚ → Prop
  | whole {w e : List Char} {n : Nat} {k : Int} (hw : Digits 10 w n) (he : Exponent e k) :
      Unsigned (w ++ e) (n * 10 ^ k)
  | trailingPoint {w e : List Char} {n : Nat} {k : Int} (hw : Digits 10 w n) (he : Exponent e k) :
      Unsigned (w ++ '.' :: e) (n * 10 ^ k)
  | fraction {w f e : List Char} {n m : Nat} {k : Int} (hw : Digits 10 w n) (hf : Digits 10 f m)
      (he : Exponent e k) :
      Unsigned (w ++ '.' :: (f ++ e)) ((n + m * 10 ^ (-(f.length : Int))) * 10 ^ k)
  | leadingPoint {f e : List Char} {m : Nat} {k : Int} (hf : Digits 10 f m) (he : Exponent e k) :
      Unsigned ('.' :: (f ++ e)) (m * 10 ^ (-(f.length : Int)) * 10 ^ k)

/-- A sign, which may be absent, and whether it makes the number negative. -/
inductive Sign : List Char → Bool → Prop
  | absent : Sign [] false
  | plus : Sign ['+'] false
  | minus : Sign ['-'] true

/-- The letters that announce a base after a zero. -/
def radixMarks : List (Char × Nat) :=
  [('x', 16), ('X', 16), ('o', 8), ('O', 8), ('b', 2), ('B', 2)]

/-- A zero, a letter that announces a base, and digits of that base. -/
inductive RadixLiteral : List Char → Nat → Prop
  | mk {mark : Char} {base : Nat} {ds : List Char} {n : Nat} (hmark : (mark, base) ∈ radixMarks)
      (h : Digits base ds n) : RadixLiteral ('0' :: mark :: ds) n

/-- What a literal denotes: a number with a sign, which zero has too, or an infinity. -/
inductive Numeral where
  | finite (negative : Bool) (magnitude : ℚ)
  | infinite (negative : Bool)

/-- A numeric literal, and what it denotes. -/
inductive NumericLiteral : List Char → Numeral → Prop
  | decimal {s cs : List Char} {negative : Bool} {q : ℚ} (hs : Sign s negative)
      (h : Unsigned cs q) : NumericLiteral (s ++ cs) (.finite negative q)
  | infinity {s : List Char} {negative : Bool} (hs : Sign s negative) :
      NumericLiteral (s ++ "Infinity".toList) (.infinite negative)
  | radix {cs : List Char} {n : Nat} (h : RadixLiteral cs n) :
      NumericLiteral cs (.finite false n)

end Literal

/-- Characters that are white space: tabulators, form feed, the zero-width no-break space
and the space separators of Unicode. -/
def whiteSpace : List Nat :=
  [0x9, 0xB, 0xC, 0xFEFF, 0x20, 0xA0, 0x1680, 0x2000, 0x2001, 0x2002, 0x2003, 0x2004, 0x2005,
    0x2006, 0x2007, 0x2008, 0x2009, 0x200A, 0x202F, 0x205F, 0x3000]

/-- Characters that end a line. -/
def lineTerminators : List Nat := [0xA, 0xD, 0x2028, 0x2029]

/-- White space or the end of a line. -/
def Blank (c : Char) : Prop := c.toNat ∈ whiteSpace ∨ c.toNat ∈ lineTerminators

/-- A text without the blanks at its start and end. -/
def Trimmed (cs t : List Char) : Prop :=
  ∃ before after, cs = before ++ t ++ after ∧ (∀ c ∈ before, Blank c) ∧ (∀ c ∈ after, Blank c) ∧
    (∀ c, t.head? = some c → ¬ Blank c) ∧ ∀ c, t.getLast? = some c → ¬ Blank c

namespace Text

/-! ## Blanks -/

theorem isBlank_iff (c : Char) : isBlank c = true ↔ Blank c := by
  simp only [isBlank, Blank, whiteSpace, lineTerminators, Bool.or_eq_true, Bool.and_eq_true,
    decide_eq_true_eq, List.mem_cons, List.not_mem_nil, or_false]
  omega

/-- What taking the blanks off the end leaves, and what it takes off. -/
theorem trimEnd_append (cs : List Char) :
    ∃ after, cs = trimEnd cs ++ after ∧ ∀ c ∈ after, isBlank c = true := by
  refine ⟨(cs.reverse.takeWhile isBlank).reverse, ?_, ?_⟩
  · rw [trimEnd, ← List.reverse_append, List.takeWhile_append_dropWhile, List.reverse_reverse]
  · intro c hc
    exact List.mem_takeWhile_imp (List.mem_reverse.mp hc)

theorem not_isBlank_head_dropWhile {cs : List Char} {c : Char}
    (h : (cs.dropWhile isBlank).head? = some c) : isBlank c = false := by
  have hnot := List.head?_dropWhile_not isBlank cs
  rw [h] at hnot
  exact hnot

/-- **Trimming** takes off the blanks at both ends and nothing else. -/
theorem trimmed_trim (cs : List Char) : Trimmed cs (trim cs) := by
  obtain ⟨after, hafter, hblank⟩ := trimEnd_append (cs.dropWhile isBlank)
  have hsplit : cs = cs.takeWhile isBlank ++ trim cs ++ after := by
    rw [trim, List.append_assoc, ← hafter, List.takeWhile_append_dropWhile]
  refine ⟨cs.takeWhile isBlank, after, hsplit, ?_, ?_, ?_, ?_⟩
  · intro c hc
    exact (isBlank_iff c).mp (List.mem_takeWhile_imp hc)
  · intro c hc
    exact (isBlank_iff c).mp (hblank c hc)
  · intro c hc
    have hhead : (cs.dropWhile isBlank).head? = some c := by
      rw [hafter, List.head?_append, ← trim, hc]
      rfl
    rw [← isBlank_iff, not_isBlank_head_dropWhile hhead]
    exact Bool.false_ne_true
  · intro c hc
    rw [trim, trimEnd, List.getLast?_reverse] at hc
    rw [← isBlank_iff, not_isBlank_head_dropWhile hc]
    exact Bool.false_ne_true

/-- A text without blanks stays as it is. -/
theorem trim_of_forall {cs : List Char} (h : ∀ c ∈ cs, isBlank c = false) : trim cs = cs := by
  have hdrop {ds : List Char} (hds : ∀ c ∈ ds, isBlank c = false) : ds.dropWhile isBlank = ds := by
    rw [List.dropWhile_eq_self_iff]
    intro hpos
    rw [hds _ (List.getElem_mem hpos)]
    exact Bool.false_ne_true
  rw [trim, trimEnd, hdrop h, hdrop fun c hc => h c (List.mem_reverse.mp hc), List.reverse_reverse]

end Text

namespace Literal

/-! ## Digits -/

theorem isDigit_iff (c : Char) : c.isDigit = true ↔ 48 ≤ c.toNat ∧ c.toNat ≤ 57 := by
  rw [Char.isDigit, Bool.and_eq_true, decide_eq_true_eq, decide_eq_true_eq]
  exact Iff.rfl

/-- A digit is known by its value, as in the tables of digits. -/
theorem digitIn?_eq_some_iff {base : Nat} (hbase : base ≤ 16) {c : Char} {d : Nat} :
    digitIn? base c = some d ↔ IsDigit base c d := by
  rw [digitIn?, Option.filter_eq_some_iff, IsDigit, decide_eq_true_eq, and_comm]
  refine and_congr_right fun hd => ?_
  constructor
  · intro h
    have hc : c = Char.ofNat c.toNat := (Char.ofNat_toNat c).symm
    have hd16 : d < 16 := by omega
    simp only [digitValue?, Char.le_def, UInt32.le_iff_toNat_le] at h
    change (if 48 ≤ c.toNat ∧ c.toNat ≤ 57 then some (c.toNat - 48)
      else if 97 ≤ c.toNat ∧ c.toNat ≤ 122 then some (c.toNat - 97 + 10)
      else if 65 ≤ c.toNat ∧ c.toNat ≤ 90 then some (c.toNat - 65 + 10) else none) = some d at h
    generalize c.toNat = v at hc h
    split at h
    · obtain rfl : v = d + 48 := by
        have := Option.some.inj h
        omega
      subst hc
      interval_cases d <;> simp_all
    · split at h
      · obtain rfl : v = d + 87 := by
          have := Option.some.inj h
          omega
        subst hc
        interval_cases d <;> simp_all
      · split at h
        · obtain rfl : v = d + 55 := by
            have := Option.some.inj h
            omega
          subst hc
          interval_cases d <;> simp_all
        · cases h
  · intro h
    have hd16 : d < 16 := by omega
    interval_cases d <;> rcases h with h | h <;> cases h <;> rfl

theorem readBase_concat (base acc : Nat) (cs : List Char) (c : Char) :
    readBase base acc (cs ++ [c]) =
      (readBase base acc cs).bind fun n => (digitIn? base c).map (n * base + ·) := by
  induction cs generalizing acc with
  | nil =>
    rw [List.nil_append, readBase, readBase, Option.bind_some]
    cases digitIn? base c <;> rfl
  | cons d ds ih =>
    rw [List.cons_append, readBase, readBase]
    cases digitIn? base d with
    | none => rfl
    | some v => exact ih _

theorem natural?_of_ne_nil (base : Nat) {cs : List Char} (h : cs ≠ []) :
    natural? base cs = readBase base 0 cs := by
  cases cs with
  | nil => exact absurd rfl h
  | cons c cs => rfl

theorem Digits.ne_nil {base n : Nat} {cs : List Char} (h : Digits base cs n) : cs ≠ [] := by
  cases h with
  | one h => exact List.cons_ne_nil _ _
  | more hcs h => exact List.append_ne_nil_of_right_ne_nil _ (List.cons_ne_nil _ _)

/-- **Reading digits** gives the number that they denote, and fails on everything else. -/
theorem natural?_eq_some_iff {base : Nat} (hbase : base ≤ 16) {cs : List Char} {n : Nat} :
    natural? base cs = some n ↔ Digits base cs n := by
  constructor
  · intro h
    induction cs using List.reverseRecOn generalizing n with
    | nil => cases h
    | append_singleton cs c ih =>
      rw [natural?_of_ne_nil base (List.append_ne_nil_of_right_ne_nil _ (List.cons_ne_nil _ _)),
        readBase_concat] at h
      obtain ⟨m, hm, hmap⟩ := Option.bind_eq_some_iff.mp h
      obtain ⟨d, hd, rfl⟩ := Option.map_eq_some_iff.mp hmap
      have hdigit := (digitIn?_eq_some_iff hbase).mp hd
      rcases eq_or_ne cs [] with rfl | hne
      · obtain rfl : 0 = m := Option.some.inj hm
        rw [Nat.zero_mul, Nat.zero_add]
        exact .one hdigit
      · exact .more (ih ((natural?_of_ne_nil base hne).trans hm)) hdigit
  · intro h
    induction h with
    | one h =>
      rw [natural?_of_ne_nil base (List.cons_ne_nil _ _), readBase,
        (digitIn?_eq_some_iff hbase).mpr h]
      simp [readBase]
    | more hcs h ih =>
      rw [natural?_of_ne_nil base hcs.ne_nil] at ih
      rw [natural?_of_ne_nil base (List.append_ne_nil_of_right_ne_nil _ (List.cons_ne_nil _ _)),
        readBase_concat, ih, Option.bind_some, (digitIn?_eq_some_iff hbase).mpr h, Option.map_some]

/-- Digits denote one number. -/
theorem Digits.unique {base m n : Nat} (hbase : base ≤ 16) {cs : List Char}
    (hm : Digits base cs m) (hn : Digits base cs n) : m = n :=
  Option.some.inj (((natural?_eq_some_iff hbase).mpr hm).symm.trans
    ((natural?_eq_some_iff hbase).mpr hn))

/-- Digits after digits move these up by as many places. -/
theorem Digits.append {base m n : Nat} {cs ds : List Char} (hcs : Digits base cs n)
    (hds : Digits base ds m) : Digits base (cs ++ ds) (n * base ^ ds.length + m) := by
  induction hds with
  | one h =>
    rw [List.length_singleton, Nat.pow_one]
    exact .more hcs h
  | @more ds m c d hds h ih =>
    have hvalue : n * base ^ (ds ++ [c]).length + (m * base + d) =
        (n * base ^ ds.length + m) * base + d := by
      rw [List.length_append, List.length_singleton, Nat.pow_succ]
      ring
    rw [← List.append_assoc, hvalue]
    exact .more ih h

theorem isDigit_of_isDigit {c : Char} {d : Nat} (h : IsDigit 10 c d) : c.isDigit = true := by
  obtain ⟨hd, hc⟩ := h
  interval_cases d <;> rcases hc with hc | hc <;> cases hc <;> rfl

theorem exists_isDigit {c : Char} (h : c.isDigit = true) : ∃ d, IsDigit 10 c d := by
  have hc := (isDigit_iff c).mp h
  refine ⟨c.toNat - 48, (digitIn?_eq_some_iff (by decide)).mp ?_⟩
  have hvalue : digitValue? c = some (c.toNat - 48) := if_pos (by
    rw [Char.le_def, Char.le_def, UInt32.le_iff_toNat_le, UInt32.le_iff_toNat_le]
    exact hc)
  rw [digitIn?, hvalue, Option.filter_some, if_pos (decide_eq_true (by omega))]

theorem Digits.isDigit {n : Nat} {cs : List Char} (h : Digits 10 cs n) :
    ∀ c ∈ cs, c.isDigit = true := by
  induction h with
  | one h =>
    intro c hc
    rw [List.mem_singleton.mp hc]
    exact isDigit_of_isDigit h
  | more hcs h ih =>
    intro c hc
    rcases List.mem_append.mp hc with hc | hc
    · exact ih c hc
    · rw [List.mem_singleton.mp hc]
      exact isDigit_of_isDigit h

theorem exists_digits {cs : List Char} (hne : cs ≠ []) (h : ∀ c ∈ cs, c.isDigit = true) :
    ∃ n, Digits 10 cs n := by
  induction cs using List.reverseRecOn with
  | nil => exact absurd rfl hne
  | append_singleton cs c ih =>
    obtain ⟨d, hd⟩ := exists_isDigit (h c (List.mem_append_right _ (List.mem_singleton_self c)))
    rcases eq_or_ne cs [] with rfl | hcs
    · exact ⟨d, .one hd⟩
    · obtain ⟨n, hn⟩ := ih hcs fun c hc => h c (List.mem_append_left _ hc)
      exact ⟨_, .more hn hd⟩

/-- A run of digits is split off whole. -/
theorem splitDigits_append {w r : List Char} (hw : ∀ c ∈ w, c.isDigit = true)
    (hr : ∀ c, r.head? = some c → c.isDigit = false) : splitDigits (w ++ r) = (w, r) := by
  rw [splitDigits, List.takeWhile_append_of_pos hw, List.dropWhile_append_of_pos hw]
  cases r with
  | nil => rw [List.takeWhile_nil, List.dropWhile_nil, List.append_nil]
  | cons c r =>
    have hc : ¬ c.isDigit = true := by
      rw [hr c rfl]
      exact Bool.false_ne_true
    rw [List.takeWhile_cons_of_neg hc, List.dropWhile_cons_of_neg hc, List.append_nil]

/-- What is split off are digits, and nothing is lost. -/
theorem splitDigits_spec (cs : List Char) :
    cs = (splitDigits cs).1 ++ (splitDigits cs).2 ∧
      ∀ c ∈ (splitDigits cs).1, c.isDigit = true :=
  ⟨List.takeWhile_append_dropWhile.symm, fun _ hc => List.mem_takeWhile_imp hc⟩

end Literal

end Ecma
