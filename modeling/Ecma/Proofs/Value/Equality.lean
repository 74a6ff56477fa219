import Mathlib.Data.List.Forall2
import Ecma.Operation.Comparison
import Ecma.Proofs.Number.Comparison

/-!
# How the equalities relate

The three equalities that run no code differ in how they compare numbers, and in nothing
else. So a value is taken apart into its `numbers`, which are the number that it is or the
lanes that it has, and the `frame` around them. Two values are equal exactly if they have
the same frame and their numbers are equal one by one (`equalWith_iff`). Here it matters
that a shape fixes how many lanes there are: lanes are compared in pairs, and what has no
partner would go unseen.

With this, what holds of numbers holds of values: to be reflexive, symmetric or transitive,
and for one equality to imply another.
-/

namespace Ecma

/-! ## Numbers -/

namespace Double

variable {x y z : Double}

/-- The value of a number in units. -/
def exactUnits? (x : Double) : Option Int := if x.isNaN then none else some x.units

/-- The value of a number in units, with the sign that zero has too. -/
def signedUnits? (x : Double) : Option (Int × Bool) :=
  if x.isNaN then none else some (x.units, x.isNegative)

theorem sameValueZero_iff : x.sameValueZero y = true ↔ x.exactUnits? = y.exactUnits? := by
  rw [sameValueZero, equals, exactUnits?, exactUnits?]
  cases x.isNaN <;> cases y.isNaN <;> simp

theorem sameValue_iff : x.sameValue y = true ↔ x.signedUnits? = y.signedUnits? := by
  rw [sameValue, equals, signedUnits?, signedUnits?]
  cases x.isNaN <;> cases y.isNaN <;> simp

theorem equals_iff : x.equals y = true ↔ x.isNaN = false ∧ x.exactUnits? = y.exactUnits? := by
  rw [equals, exactUnits?, exactUnits?]
  cases x.isNaN <;> cases y.isNaN <;> simp

theorem sameValueZero_equivalence : Equivalence fun x y : Double => x.sameValueZero y = true := by
  simp only [sameValueZero_iff]
  exact eq_equivalence.comap exactUnits?

theorem sameValue_equivalence : Equivalence fun x y : Double => x.sameValue y = true := by
  simp only [sameValue_iff]
  exact eq_equivalence.comap signedUnits?

theorem equals_self_iff : x.equals x = true ↔ x.isNaN = false := by
  rw [equals_iff]
  exact and_iff_left rfl

theorem exactUnits?_eq_none : x.exactUnits? = none ↔ x.isNaN = true := by
  rw [exactUnits?]
  cases x.isNaN <;> simp

theorem equals_symm (h : x.equals y = true) : y.equals x = true := by
  rw [equals_iff] at h ⊢
  obtain ⟨hx, hunits⟩ := h
  refine ⟨?_, hunits.symm⟩
  rwa [← Bool.not_eq_true, ← exactUnits?_eq_none, ← hunits, exactUnits?_eq_none,
    Bool.not_eq_true]

theorem equals_trans (hxy : x.equals y = true) (hyz : y.equals z = true) :
    x.equals z = true := by
  rw [equals_iff] at *
  exact ⟨hxy.1, hxy.2.trans hyz.2⟩

theorem sameValueZero_of_sameValue (h : x.sameValue y = true) : x.sameValueZero y = true := by
  have hfst (x : Double) : x.exactUnits? = x.signedUnits?.map Prod.fst := by
    rw [exactUnits?, signedUnits?]
    cases x.isNaN <;> rfl
  rw [sameValueZero_iff, hfst, hfst, sameValue_iff.mp h]

theorem sameValueZero_of_equals (h : x.equals y = true) : x.sameValueZero y = true :=
  sameValueZero_iff.mpr (equals_iff.mp h).2

/-- Without a not-a-number the zeros are all that is left to differ in. -/
theorem sameValueZero_eq_equals (hnan : x.isNaN = false) : x.sameValueZero y = x.equals y := by
  rw [sameValueZero, hnan, Bool.false_and, Bool.false_or]

/-- Equal numbers other than zero have the same sign. -/
theorem isNegative_eq_of_units_eq (h : x.units = y.units) (hzero : x.isZero = false) :
    x.isNegative = y.isNegative := by
  have hmagnitude : x.magnitude ≠ 0 := of_decide_eq_false hzero
  cases hx : x.isNegative <;> cases hy : y.isNegative
  · rfl
  · rw [units_of_not_isNegative hx, units_of_isNegative hy] at h
    omega
  · rw [units_of_isNegative hx, units_of_not_isNegative hy] at h
    omega
  · rfl

theorem sameValue_eq_equals (hnan : x.isNaN = false) (hzero : x.isZero = false) :
    x.sameValue y = x.equals y := by
  rw [sameValue, hnan, if_neg Bool.false_ne_true, Bool.and_eq_left_iff_imp, decide_eq_true_eq]
  intro h
  have hunits : x.units = y.units := by
    rw [equals, Bool.and_eq_true, decide_eq_true_eq] at h
    exact h.2
  exact isNegative_eq_of_units_eq hunits hzero

end Double

/-! ## Values -/

/-- What a value is apart from its numbers. -/
inductive Frame where
  | number
  | simd (shape : LaneShape)
  | other (v : Value)

namespace Value

/-- The number that a value is, or the lanes that it has. -/
def numbers : Value → List Double
  | number n => [n]
  | simd v => v.lanes
  | _ => []

/-- A value apart from its numbers. -/
def frame : Value → Frame
  | number _ => .number
  | simd v => .simd v.shape
  | v => .other v

end Value

/-- Vectors of one shape have the same count of lanes, so none goes unseen. -/
theorem Simd.lanewise_iff {rel : Double → Double → Bool} {a b : Simd} :
    a.lanewise rel b = true ↔
      a.shape = b.shape ∧ List.Forall₂ (fun x y => rel x y = true) a.lanes b.lanes := by
  rw [lanewise, Bool.and_eq_true, decide_eq_true_eq, List.all_eq_true, List.forall₂_iff_zip]
  refine and_congr_right fun hshape => ?_
  have hlength : a.lanes.length = b.lanes.length := by
    rw [a.length_lanes, b.length_lanes, hshape]
  exact ⟨fun h => ⟨hlength, fun hp => h _ hp⟩, fun h p hp => h.2 hp⟩

namespace Value

variable {rel rel' : Double → Double → Bool} {x y z : Value}

/-- **Equal values** have the same frame, and their numbers are equal one by one. -/
theorem equalWith_iff : x.equalWith rel y = true ↔
    x.frame = y.frame ∧ List.Forall₂ (fun a b => rel a b = true) x.numbers y.numbers := by
  cases x <;> cases y <;> simp [equalWith, frame, numbers, Simd.lanewise_iff]

/-- A value is equal to itself if its numbers are. -/
theorem equalWith_self_iff : x.equalWith rel x = true ↔ ∀ n ∈ x.numbers, rel n n = true := by
  rw [equalWith_iff, List.forall₂_same]
  exact and_iff_right rfl

theorem equalWith_symm (hrel : ∀ {a b}, rel a b = true → rel b a = true)
    (h : x.equalWith rel y = true) : y.equalWith rel x = true := by
  obtain ⟨hframe, hnumbers⟩ := equalWith_iff.mp h
  exact equalWith_iff.mpr ⟨hframe.symm, .flip (hnumbers.imp fun _ _ => hrel)⟩

theorem forall₂_trans {α : Type} {R : α → α → Prop} (hR : ∀ a b c, R a b → R b c → R a c)
    {l m n : List α} (hlm : List.Forall₂ R l m) (hmn : List.Forall₂ R m n) :
    List.Forall₂ R l n := by
  induction hlm generalizing n with
  | nil => exact hmn
  | cons hab _ ih =>
    cases hmn with
    | cons hbc hmn => exact .cons (hR _ _ _ hab hbc) (ih hmn)

theorem equalWith_trans (hrel : ∀ {a b c}, rel a b = true → rel b c = true → rel a c = true)
    (hxy : x.equalWith rel y = true) (hyz : y.equalWith rel z = true) :
    x.equalWith rel z = true := by
  obtain ⟨hframe, hnumbers⟩ := equalWith_iff.mp hxy
  obtain ⟨hframe', hnumbers'⟩ := equalWith_iff.mp hyz
  have hall := forall₂_trans (R := fun a b => rel a b = true) (fun _ _ _ => hrel) hnumbers hnumbers'
  exact equalWith_iff.mpr ⟨hframe.trans hframe', hall⟩

/-- One equality implies another if it does for the numbers at hand. -/
theorem equalWith_mono
    (hrel : ∀ a ∈ x.numbers, ∀ b ∈ y.numbers, rel a b = true → rel' a b = true)
    (h : x.equalWith rel y = true) : x.equalWith rel' y = true := by
  obtain ⟨hframe, hnumbers⟩ := equalWith_iff.mp h
  rw [List.forall₂_iff_zip] at hnumbers
  refine equalWith_iff.mpr ⟨hframe, List.forall₂_iff_zip.mpr ⟨hnumbers.1, fun hp => ?_⟩⟩
  obtain ⟨ha, hb⟩ := List.of_mem_zip hp
  exact hrel _ ha _ hb (hnumbers.2 hp)

theorem equalWith_equivalence (hrel : Equivalence fun a b : Double => rel a b = true) :
    Equivalence fun x y : Value => x.equalWith rel y = true where
  refl _ := equalWith_self_iff.mpr fun n _ => hrel.refl n
  symm := equalWith_symm hrel.symm
  trans := equalWith_trans hrel.trans

/-- Two equalities agree if they do on the numbers at hand. -/
theorem equalWith_congr (hrel : ∀ a ∈ x.numbers, ∀ b ∈ y.numbers, rel a b = rel' a b) :
    x.equalWith rel y = x.equalWith rel' y := by
  rw [Bool.eq_iff_iff]
  exact ⟨equalWith_mono fun a ha b hb h => hrel a ha b hb ▸ h,
    equalWith_mono fun a ha b hb h => (hrel a ha b hb).symm ▸ h⟩

theorem type_eq_of_strictEquals (h : x.strictEquals y = true) : x.type = y.type := by
  have hframe := (equalWith_iff.mp h).1
  cases x <;> cases y <;> first | rfl | cases hframe

/-- Values that are strictly equal are loosely equal, and no code runs to find out. -/
theorem looselyEqual_of_strictEquals {σ : Type} (h : x.strictEquals y = true) :
    Program.looselyEqual x y = (pure true : Program σ Bool) := by
  have hvalue : x.looselyEqual y = true := by
    rw [looselyEqual, if_pos (type_eq_of_strictEquals h), h]
  have htype := type_eq_of_strictEquals h
  cases x <;> cases y <;> try cases htype
  case object.object a b =>
    have hsame : a = b := of_decide_eq_true h
    rw [Program.looselyEqual, decide_eq_true hsame]
  all_goals exact congrArg pure hvalue

/-- **The equalities are ordered.** Same value and same value but for the sign of zero are
equivalences, and the first implies the second. Strict equality is symmetric and transitive
and fails on a value and itself only if there is no number where one should be; it implies
the second too, and loose equality without running code. The three agree where neither zero
nor not-a-number takes part. -/
theorem equalities_ordered (σ : Type) :
    Equivalence (fun x y : Value => x.sameValue y = true) ∧
      Equivalence (fun x y : Value => x.sameValueZero y = true) ∧
      (∀ x y : Value, x.strictEquals y = true → y.strictEquals x = true) ∧
      (∀ x y z : Value, x.strictEquals y = true → y.strictEquals z = true →
        x.strictEquals z = true) ∧
      (∀ x : Value, x.strictEquals x = false ↔
        (∃ n, x = .number n ∧ n.isNaN = true) ∨
          ∃ v, x = .simd v ∧ ∃ lane ∈ v.lanes, lane.isNaN = true) ∧
      (∀ x y : Value, x.sameValue y = true → x.sameValueZero y = true) ∧
      (∀ x y : Value, x.strictEquals y = true →
        x.sameValueZero y = true ∧ Program.looselyEqual x y = (pure true : Program σ Bool)) ∧
      ∀ x y : Value, (∀ n ∈ x.numbers ++ y.numbers, n.isNaN = false ∧ n.isZero = false) →
        x.sameValue y = x.strictEquals y ∧ x.sameValueZero y = x.strictEquals y := by
  refine ⟨equalWith_equivalence Double.sameValue_equivalence,
    equalWith_equivalence Double.sameValueZero_equivalence,
    fun x y => equalWith_symm Double.equals_symm,
    fun x y z => equalWith_trans Double.equals_trans, ?_, ?_, ?_, ?_⟩
  · intro x
    rw [← Bool.not_eq_true, strictEquals, equalWith_self_iff]
    cases x <;> simp [numbers, Double.equals_self_iff]
  · intro x y
    exact equalWith_mono fun a _ b _ => Double.sameValueZero_of_sameValue
  · intro x y h
    exact ⟨equalWith_mono (fun a _ b _ => Double.sameValueZero_of_equals) h,
      looselyEqual_of_strictEquals h⟩
  · intro x y h
    have hx (a : Double) (ha : a ∈ x.numbers) := h a (List.mem_append_left _ ha)
    exact ⟨equalWith_congr fun a ha b _ => Double.sameValue_eq_equals (hx a ha).1 (hx a ha).2,
      equalWith_congr fun a ha b _ => Double.sameValueZero_eq_equals (hx a ha).1⟩

/-- The zeros are strictly equal but not the same value; a vector with a not-a-number is the
same value as itself; on one and infinity the equalities agree. -/
theorem equalities_ordered_at_values :
    (number .negZero).strictEquals (number .zero) = true ∧
      (number .zero).strictEquals (number .zero) = true ∧
      (number .zero).sameValueZero (number .negZero) = true ∧
      (simd ⟨.float64x2, [.nan, .zero], rfl⟩).sameValueZero
        (simd ⟨.float64x2, [.nan, .zero], rfl⟩) = true ∧
      (number .one).sameValue (number .infinity) =
        (number .one).strictEquals (number .infinity) := by
  obtain ⟨hsame, -, hsymm, htrans, -, hzero, hstrict, hagree⟩ := equalities_ordered Unit
  have hzeros : (number .zero).strictEquals (number .negZero) = true := by decide
  refine ⟨hsymm _ _ hzeros, htrans _ _ _ hzeros (hsymm _ _ hzeros), (hstrict _ _ hzeros).1,
    hzero _ _ (hsame.refl _), (hagree _ _ ?_).1⟩
  decide +kernel

end Value

end Ecma
