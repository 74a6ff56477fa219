import Ecma.Proofs.Number.IntegerConversion
import Ecma.Proofs.Number.Single
import Ecma.Proofs.Value.Equality

/-!
# Lanes hold what their type represents

A shape **represents** some numbers exactly (`LaneShape.Represents`): those of single precision,
the integers of a range, zero and one, or all of them. The lanes of a vector are kept as such
numbers.

What makes this work is the same for all shapes. Coercing a number to the lane type
`Normalizes` it: what comes out is represented, coercing it again changes nothing, and the
numbers that keep their value are those that were represented before. There are four ways in
which a shape does so, and each has a lemma: `normalizes_id`, `normalizes_toSingle`, one for
integers of a range, of which `normalizes_toInt` and `normalizes_toUint` are cases, and
`normalizes_ofBool`.
-/

namespace Ecma

namespace Double

variable {x y : Double}

/-- Only not-a-number is the same value as a double with other bits. -/
theorem eq_of_sameValue (h : x.sameValue y = true) (hnan : x.isNaN = false) : x = y := by
  rw [sameValue, hnan, if_neg Bool.false_ne_true, equals] at h
  simp only [Bool.and_eq_true, decide_eq_true_eq] at h
  obtain ⟨⟨-, hunits⟩, hsign⟩ := h
  exact ext_magnitude hsign (by rw [← natAbs_units, hunits, natAbs_units])

/-! ## Conversions that normalize -/

/-- A conversion gives numbers with a property, leaves its own results alone, and keeps the
value of a number exactly if this has the property. -/
structure Normalizes (f : Double → Double) (P : Double → Prop) : Prop where
  canonical : ∀ x, P (f x)
  idempotent : ∀ x, f (f x) = f x
  keeps_iff : ∀ x, (f x).sameValue x = true ↔ P x

theorem normalizes_id : Normalizes (fun x => x) fun _ => True where
  canonical _ := trivial
  idempotent _ := rfl
  keeps_iff x := iff_of_true (sameValue_equivalence.refl x) trivial

/-- Where every number with the property has a value, it is enough to keep these numbers as
they are. -/
theorem normalizes_of_keeps {f : Double → Double} {P : Double → Prop}
    (hcanonical : ∀ x, P (f x)) (hkeeps : ∀ x, P x → f x = x)
    (hnan : ∀ x, P x → x.isNaN = false) : Normalizes f P where
  canonical := hcanonical
  idempotent x := hkeeps (f x) (hcanonical x)
  keeps_iff x := by
    constructor
    · intro hsame
      rw [← eq_of_sameValue hsame (hnan (f x) (hcanonical x))]
      exact hcanonical x
    · intro h
      rw [hkeeps x h]
      exact sameValue_equivalence.refl x

/-! ### Single precision -/

theorem canonical_toSingle (x : Double) :
    x.toSingle.isNaN = true ∨ x.toSingle.isInfinite = true ∨ x.toSingle.IsSingle := by
  refine x.toSingle_cases.imp_left fun hnan => ?_
  rw [hnan]
  decide

/-- **Single precision** keeps its own numbers, the infinities and not-a-number. -/
theorem normalizes_toSingle :
    Normalizes toSingle fun x => x.isNaN = true ∨ x.isInfinite = true ∨ x.IsSingle where
  canonical := canonical_toSingle
  idempotent := toSingle_toSingle
  keeps_iff x := by
    constructor
    · intro hsame
      cases hnan : x.isNaN with
      | true => exact .inl rfl
      | false =>
        have heq := eq_of_sameValue (sameValue_equivalence.symm hsame) hnan
        have hcanonical := x.canonical_toSingle
        rwa [← heq, hnan] at hcanonical
    · rintro (hnan | hinf | hsingle)
      · rw [toSingle_of_isNaN hnan, sameValue, if_pos (by decide), hnan]
      · rw [toSingle_of_isInfinite hinf]
        exact sameValue_equivalence.refl x
      · rw [toSingle_of_isSingle hsingle]
        exact sameValue_equivalence.refl x

/-! ### Integers -/

/-- The number is an integer from the lower bound on and below the upper one, and zero has no
sign. -/
structure IsIntegerIn (low high : ℤ) (x : Double) : Prop where
  ne_negZero : x ≠ negZero
  holds : ∃ n, low ≤ n ∧ n < high ∧ x.Holds n

/-- **The double of an integer** is the one that holds it, and not minus zero. -/
theorem eq_ofInt_iff {n : ℤ} (hn : n.natAbs < 2 ^ 53) :
    x = ofInt n ↔ x.Holds n ∧ x ≠ negZero := by
  constructor
  · rintro rfl
    refine ⟨holds_ofInt hn, fun hzero => ?_⟩
    have hholds := holds_ofInt hn
    have hsign := isNegative_ofInt hn
    rw [hzero] at hholds hsign
    have hn : n = 0 := of_decide_eq_true (hholds.isZero.symm.trans (by decide))
    rw [hn] at hsign
    exact absurd hsign (by decide)
  · rintro ⟨hx, hzero⟩
    refine ext_magnitude ?_ (hx.magnitude.trans (holds_ofInt hn).magnitude.symm)
    rw [isNegative_ofInt hn]
    have heq := hx.eq_natAbs
    cases hsign : x.isNegative with
    | false =>
      rw [hsign, if_neg Bool.false_ne_true] at heq
      exact (decide_eq_false (by omega)).symm
    | true =>
      rw [hsign, if_pos rfl] at heq
      -- a zero with a sign would be minus zero
      have hne : n ≠ 0 := by
        rintro rfl
        refine hzero (ext_magnitude (hsign.trans (by decide)) ?_)
        rw [hx.magnitude, Int.natAbs_zero, Nat.zero_mul]
        decide
      exact (decide_eq_true (by omega)).symm

/-- **Integers of a range.** A conversion to a range that keeps its integers normalizes. -/
theorem normalizes_ofInt {low high : ℤ} {f : Double → ℤ} (hleast : -2 ^ 53 < low)
    (hgreatest : high ≤ 2 ^ 53) (hmem : ∀ x, low ≤ f x ∧ f x < high)
    (hkeeps : ∀ x n, low ≤ n → n < high → x.Holds n → f x = n) :
    Normalizes (fun x => ofInt (f x)) (IsIntegerIn low high) := by
  have hsmall {n : ℤ} (hlow : low ≤ n) (hhigh : n < high) : n.natAbs < 2 ^ 53 := by omega
  refine normalizes_of_keeps (fun x => ?_) (fun x h => ?_) (fun x h => ?_)
  · obtain ⟨hlow, hhigh⟩ := hmem x
    obtain ⟨hholds, hzero⟩ := (eq_ofInt_iff (hsmall hlow hhigh)).mp rfl
    exact ⟨hzero, f x, hlow, hhigh, hholds⟩
  · obtain ⟨hzero, n, hlow, hhigh, hx⟩ := h
    rw [hkeeps x n hlow hhigh hx]
    exact ((eq_ofInt_iff (hsmall hlow hhigh)).mpr ⟨hx, hzero⟩).symm
  · obtain ⟨-, n, -, -, hx⟩ := h
    exact isNaN_of_isFinite hx.isFinite

theorem normalizes_toInt (width : Nat) (hpos : 0 < width) (hwidth : width ≤ 32) :
    Normalizes (fun x => ofInt (x.toInt width))
      (IsIntegerIn (-2 ^ (width - 1)) (2 ^ (width - 1))) := by
  have hpow : (2 : ℤ) ^ (width - 1) ≤ 2 ^ 31 := pow_le_pow_right₀ (by decide) (by omega)
  refine normalizes_ofInt (by omega) (by omega) (fun x => ⟨BitVec.le_toInt _, BitVec.toInt_lt⟩)
    (fun x n hlow hhigh hx => ?_)
  rw [toInt, setWidth_toWord hx.isFinite hwidth, hx.truncate]
  exact BitVec.toInt_ofInt_eq_self hpos hlow hhigh

theorem normalizes_toUint (width : Nat) (hwidth : width ≤ 32) :
    Normalizes (fun x => ofNat (x.toUint width)) (IsIntegerIn 0 (2 ^ width)) := by
  have hofNat (n : Nat) : ofInt n = ofNat n := by
    rw [ofInt, decide_eq_false (by omega), Int.natAbs_natCast, ofNat]
  have hpow : (2 : ℤ) ^ width ≤ 2 ^ 32 := pow_le_pow_right₀ (by decide) hwidth
  simp only [← hofNat]
  refine normalizes_ofInt (by decide) (by omega) (fun x => ?_) (fun x n hlow hhigh hx => ?_)
  · exact ⟨Int.natCast_nonneg _, by exact_mod_cast toUint_lt width x⟩
  · rw [toUint_eq hx.isFinite hwidth, hx.truncate]
    exact Int.emod_eq_of_lt hlow (by exact_mod_cast hhigh)

/-! ### Truth values -/

theorem normalizes_ofBool :
    Normalizes (fun x => ofBool (!x.isZero && !x.isNaN)) fun x => x = zero ∨ x = one := by
  refine normalizes_of_keeps (fun x => ?_) ?_ ?_
  · cases !x.isZero && !x.isNaN with
    | false => exact .inl rfl
    | true => exact .inr rfl
  · rintro x (rfl | rfl) <;> decide +kernel
  · rintro x (rfl | rfl) <;> decide +kernel

end Double

/-! ## Lanes -/

namespace LaneShape

variable {shape : LaneShape}

/-- A lane of the shape represents the number exactly. -/
def Represents (x : Double) : LaneShape → Prop
  | float64x2 => True
  | float32x4 => x.isNaN = true ∨ x.isInfinite = true ∨ x.IsSingle
  | int32x4 => x.IsIntegerIn (-2 ^ 31) (2 ^ 31)
  | int16x8 => x.IsIntegerIn (-2 ^ 15) (2 ^ 15)
  | int8x16 => x.IsIntegerIn (-2 ^ 7) (2 ^ 7)
  | uint32x4 => x.IsIntegerIn 0 (2 ^ 32)
  | uint16x8 => x.IsIntegerIn 0 (2 ^ 16)
  | uint8x16 => x.IsIntegerIn 0 (2 ^ 8)
  | bool64x2 | bool32x4 | bool16x8 | bool8x16 => x = .zero ∨ x = .one

/-- **Coercing** a number to a lane type normalizes it to what the lane type represents. -/
theorem normalizes_coerce (shape : LaneShape) :
    Double.Normalizes (coerce · shape) (Represents · shape) := by
  cases shape with
  | float64x2 => exact Double.normalizes_id
  | float32x4 => exact Double.normalizes_toSingle
  | int32x4 => exact Double.normalizes_toInt 32 (by decide) (by decide)
  | int16x8 => exact Double.normalizes_toInt 16 (by decide) (by decide)
  | int8x16 => exact Double.normalizes_toInt 8 (by decide) (by decide)
  | uint32x4 => exact Double.normalizes_toUint 32 (by decide)
  | uint16x8 => exact Double.normalizes_toUint 16 (by decide)
  | uint8x16 => exact Double.normalizes_toUint 8 (by decide)
  | bool64x2 | bool32x4 | bool16x8 | bool8x16 => exact Double.normalizes_ofBool

theorem coerce_of_isBoolean (h : shape.isBoolean = true) (x : Double) :
    shape.coerce x = .ofBool (!x.isZero && !x.isNaN) := by
  cases shape with
  | bool64x2 | bool32x4 | bool16x8 | bool8x16 => rfl
  | _ => cases h

theorem coerce_ofBool (h : shape.isBoolean = true) (b : Bool) :
    shape.coerce (.ofBool b) = .ofBool b := by
  rw [coerce_of_isBoolean h]
  cases b <;> decide +kernel

end LaneShape

/-! ## Vectors -/

namespace Simd

variable {shape : LaneShape} {v : Simd}

/-- A vector that was made of numbers or of truth values. -/
inductive Built : Simd → Prop
  | ofLanes {shape : LaneShape} {lanes : List Double} {v : Simd}
      (h : Simd.ofLanes shape lanes = .ok v) : Built v
  | ofBools {shape : LaneShape} {bools : List Bool} {v : Simd}
      (h : Simd.ofBools shape bools = .ok v) : Built v

/-- A vector that is made of numbers has them as lanes, coerced one by one. -/
theorem eq_of_ofLanes {lanes : List Double} (h : ofLanes shape lanes = .ok v) :
    v.shape = shape ∧ v.lanes = lanes.map (LaneShape.coerce · shape) := by
  rw [ofLanes] at h
  split at h
  · cases h
    exact ⟨rfl, rfl⟩
  · cases h

theorem exists_ofLanes {lanes : List Double} (h : lanes.length = shape.lanes) :
    ∃ v, ofLanes shape lanes = .ok v := ⟨_, dif_pos h⟩

/-- Coercing leaves the lanes of a vector alone that was made of numbers. -/
theorem coerce_of_ofLanes {lanes : List Double} (h : ofLanes shape lanes = .ok v) :
    ∀ lane ∈ v.lanes, v.shape.coerce lane = lane := by
  obtain ⟨hshape, hlanes⟩ := eq_of_ofLanes h
  rw [hshape, hlanes, List.forall_mem_map]
  exact fun lane _ => shape.normalizes_coerce.idempotent lane

theorem ofBools_eq (h : shape.isBoolean = true) (bools : List Bool) :
    ofBools shape bools = ofLanes shape (bools.map Double.ofBool) := if_pos h

theorem Built.coerce_lane (h : v.Built) : ∀ lane ∈ v.lanes, v.shape.coerce lane = lane := by
  cases h with
  | ofLanes h => exact coerce_of_ofLanes h
  | @ofBools shape bools _ h =>
    cases hboolean : shape.isBoolean with
    | true =>
      rw [ofBools_eq hboolean] at h
      exact coerce_of_ofLanes h
    | false =>
      rw [Simd.ofBools, hboolean, if_neg Bool.false_ne_true] at h
      cases h

/-- Lanes that coercing leaves alone make up the same vector again. -/
theorem ofLanes_lanes (h : ∀ lane ∈ v.lanes, v.shape.coerce lane = lane) :
    ofLanes v.shape v.lanes = .ok v := by
  obtain ⟨shape, lanes, hlength⟩ := v
  rw [ofLanes, dif_pos hlength]
  congr 2
  exact (List.map_congr_left h).trans (List.map_id lanes)

/-- **Lanes are canonical.**

* Any numbers of the right count, whatever they are, make up a vector. Each of its lanes is a
  number that the lane type represents exactly, and coercing leaves it alone. The lanes have the
  values that were given exactly if the lane type represents all of these.
* The lanes of a vector that was made in this way, or of truth values, make up a vector with
  the same value.
* Truth values make up the vector of the zeros and ones that stand for them, and these are its
  lanes. -/
theorem lanes_canonical :
    (∀ (shape : LaneShape) (lanes : List Double), lanes.length = shape.lanes →
      ∃ v, ofLanes shape lanes = .ok v ∧ v.shape = shape ∧
        (∀ lane ∈ v.lanes, shape.coerce lane = lane ∧ shape.Represents lane) ∧
        (List.Forall₂ (fun x y => x.sameValue y = true) v.lanes lanes ↔
          ∀ lane ∈ lanes, shape.Represents lane)) ∧
    (∀ v : Simd, v.Built → ∃ w, ofLanes v.shape v.lanes = .ok w ∧
      (Value.simd w).sameValue (.simd v) = true) ∧
    ∀ shape : LaneShape, shape.isBoolean = true → ∀ bools : List Bool,
      ofBools shape bools = ofLanes shape (bools.map Double.ofBool) ∧
      (bools.length = shape.lanes → ∃ v, ofBools shape bools = .ok v ∧ v.shape = shape ∧
        v.lanes = bools.map Double.ofBool) := by
  refine ⟨fun shape lanes hlength => ?_, fun v hv => ?_, fun shape hboolean bools =>
    ⟨ofBools_eq hboolean bools, fun hlength => ?_⟩⟩
  · obtain ⟨v, hv⟩ := exists_ofLanes hlength
    obtain ⟨hshape, hlanes⟩ := eq_of_ofLanes hv
    refine ⟨v, hv, hshape, ?_, ?_⟩
    · rw [hlanes, List.forall_mem_map]
      exact fun lane _ =>
        ⟨shape.normalizes_coerce.idempotent lane, shape.normalizes_coerce.canonical lane⟩
    · rw [hlanes, List.forall₂_map_left_iff, List.forall₂_same]
      exact forall₂_congr fun lane _ => shape.normalizes_coerce.keeps_iff lane
  · exact ⟨v, ofLanes_lanes hv.coerce_lane,
      (Value.equalWith_equivalence Double.sameValue_equivalence).refl _⟩
  · have hcount : (bools.map Double.ofBool).length = shape.lanes := by rwa [List.length_map]
    obtain ⟨v, hv⟩ := exists_ofLanes hcount
    obtain ⟨hshape, hlanes⟩ := eq_of_ofLanes hv
    refine ⟨v, (ofBools_eq hboolean bools).trans hv, hshape, ?_⟩
    rw [hlanes, List.map_map]
    exact List.map_congr_left fun b _ => LaneShape.coerce_ofBool hboolean b

/-- In single precision a tenth, the least number that is too great, a negative one that is too
small and not-a-number; minus zero among integers; a vector with not-a-number and minus zero;
and truth values. -/
theorem lanes_canonical_at_extremes :
    (∃ v, ofLanes .float32x4
        [⟨0x3FB999999999999A⟩, ⟨0x47EFFFFFF0000000⟩, ⟨0xB690000000000000⟩, .nan] = .ok v ∧
      ∀ lane ∈ v.lanes, LaneShape.float32x4.coerce lane = lane ∧
        LaneShape.float32x4.Represents lane) ∧
    (∃ v, ofLanes .int8x16 (List.replicate 16 .negZero) = .ok v ∧
      ∀ lane ∈ v.lanes, lane ≠ .negZero) ∧
    (∃ w, ofLanes .float64x2 [.nan, .negZero] = .ok w ∧
      (Value.simd w).sameValue (.simd ⟨.float64x2, [.nan, .negZero], rfl⟩) = true) ∧
    ∃ v, ofBools .bool64x2 [true, false] = .ok v ∧ v.lanes = [.one, .zero] := by
  obtain ⟨hlanes, hagain, hbools⟩ := lanes_canonical
  refine ⟨?_, ?_, ?_, ?_⟩
  · obtain ⟨v, hv, -, hcanonical, -⟩ := hlanes .float32x4
      [⟨0x3FB999999999999A⟩, ⟨0x47EFFFFFF0000000⟩, ⟨0xB690000000000000⟩, .nan] rfl
    exact ⟨v, hv, hcanonical⟩
  · obtain ⟨v, hv, -, hcanonical, -⟩ := hlanes .int8x16 (List.replicate 16 .negZero) rfl
    exact ⟨v, hv, fun lane hlane => (hcanonical lane hlane).2.ne_negZero⟩
  · have hbuilt : ofLanes .float64x2 [.nan, .negZero] =
      .ok ⟨.float64x2, [.nan, .negZero], rfl⟩ := rfl
    exact hagain ⟨.float64x2, [.nan, .negZero], rfl⟩ (.ofLanes hbuilt)
  · obtain ⟨v, hv, -, hone⟩ := (hbools .bool64x2 rfl [true, false]).2 rfl
    exact ⟨v, hv, hone⟩

end Simd

end Ecma
