import Ecma.Proofs.Machine.Changes
import Ecma.Proofs.Value.Equality

/-!
# Loose equality is symmetric

Loose equality is usually told as a recursion. A round looks at the types of both operands;
the first arm that fits either decides or replaces an operand, a boolean by a number or an
object by its primitive value, and the next round looks at what is there then
(`looselyEqualRound`). Some pairs fit several arms, and after a conversion, which may run any
code, any primitive value can turn up, a boolean again among them.

The recursion comes to an end within four rounds, whatever a fifth would do, and it comes to
`looselyEqual` (`looselyEqualRound_four`). This works because a conversion never gives an
object, so that there is at most one conversion. In this form both orders of the operands are
the same program: every effect is the same, in the same order, and so is everything that
follows from them.
-/

namespace Ecma

/-! ## Primitive values -/

namespace Value

theorem strictEquals_comm (x y : Value) : x.strictEquals y = y.strictEquals x :=
  Bool.eq_iff_iff.mpr ⟨equalWith_symm Double.equals_symm, equalWith_symm Double.equals_symm⟩

theorem looselyEqualPrimitives_comm (x y : Value) :
    x.looselyEqualPrimitives y = y.looselyEqualPrimitives x := by
  cases x <;> cases y <;> first | rfl | exact strictEquals_comm _ _

theorem looselyEqual_comm (x y : Value) : x.looselyEqual y = y.looselyEqual x := by
  rw [looselyEqual, looselyEqual, strictEquals_comm, looselyEqualPrimitives_comm]
  exact if_congr eq_comm rfl rfl

theorem exists_of_isObject {x : Value} (h : x.isObject = true) : ∃ o, x = object o := by
  cases x with
  | object o => exact ⟨o, rfl⟩
  | _ => cases h

/-- A value against which an object is converted. -/
def isEqualityPrimitive : Value → Bool
  | number _ | string _ | bigint _ | symbol _ | simd _ => true
  | _ => false

end Value

namespace Program

variable {σ α β : Type}

/-! ## Conversions -/

/-- Going on differently only after values that never come changes nothing. -/
theorem Returns.bind_congr {P : α → Prop} {p : Program σ α} (hp : p.Returns P)
    {f g : α → Program σ β} (h : ∀ a, P a → f a = g a) : p.bind f = p.bind g := by
  induction p with
  | done a => exact h a hp
  | fail e => rfl
  | stop s => rfl
  | step e k ih => exact congrArg (step e) (funext fun answer => ih answer (hp answer))

/-- The end of a conversion: an object is refused. -/
theorem returns_unless_isObject {v : Value} {p : Program σ Value}
    (hp : p.Returns fun v => v.isObject = false) :
    (if v.isObject then p else pure v).Returns fun v => v.isObject = false := by
  split
  · exact hp
  · next h => exact Bool.eq_false_iff.mpr h

theorem returns_tryMethods (o : ObjectId) (names : List String) :
    (tryMethods o names : Program σ Value).Returns fun v => v.isObject = false := by
  induction names with
  | nil => trivial
  | cons name rest ih =>
    refine (returns_true _).bind fun method _ => ?_
    split
    · refine (returns_true _).bind fun callable _ => ?_
      split
      · exact (returns_true _).bind fun result _ => returns_unless_isObject ih
      · exact ih
    · exact ih

/-- **A conversion** never gives an object. -/
theorem returns_objectToPrimitive (o : ObjectId) (hint : Hint) :
    (objectToPrimitive o hint : Program σ Value).Returns fun v => v.isObject = false := by
  refine (returns_true _).bind fun method _ => ?_
  split
  · exact (returns_true _).bind fun result _ => returns_unless_isObject trivial
  · exact returns_tryMethods o _

/-! ## Operands -/

theorem looselyEqual_primitives {x y : Value} (hx : x.isObject = false) (hy : y.isObject = false) :
    (looselyEqual x y : Program σ Bool) = pure (x.looselyEqual y) := by
  cases x <;> cases hx <;> cases y <;> cases hy <;> rfl

theorem looselyEqual_object (o : ObjectId) {v : Value} (hv : v.isObject = false) :
    (looselyEqual (.object o) v : Program σ Bool) = looselyEqualObject o v ∧
      (looselyEqual v (.object o) : Program σ Bool) = looselyEqualObject o v := by
  cases v <;> cases hv <;> exact ⟨rfl, rfl⟩

/-- Two values: no object, one of them or both. -/
theorem operands (x y : Value) :
    (x.isObject = false ∧ y.isObject = false) ∨
      (∃ o, x = .object o ∧ y.isObject = false) ∨ (∃ o, y = .object o ∧ x.isObject = false) ∨
      ∃ o p, x = .object o ∧ y = .object p := by
  cases hx : x.isObject <;> cases hy : y.isObject
  · exact .inl ⟨rfl, rfl⟩
  · obtain ⟨o, rfl⟩ := Value.exists_of_isObject hy
    exact .inr (.inr (.inl ⟨o, rfl, rfl⟩))
  · obtain ⟨o, rfl⟩ := Value.exists_of_isObject hx
    exact .inr (.inl ⟨o, rfl, rfl⟩)
  · obtain ⟨o, rfl⟩ := Value.exists_of_isObject hx
    obtain ⟨p, rfl⟩ := Value.exists_of_isObject hy
    exact .inr (.inr (.inr ⟨o, p, rfl, rfl⟩))

/-- **Both orders** of the operands are the same program. -/
theorem looselyEqual_comm (x y : Value) :
    (looselyEqual x y : Program σ Bool) = looselyEqual y x := by
  rcases operands x y with ⟨hx, hy⟩ | ⟨o, rfl, hy⟩ | ⟨o, rfl, hx⟩ | ⟨o, p, rfl, rfl⟩
  · rw [looselyEqual_primitives hx hy, looselyEqual_primitives hy hx, Value.looselyEqual_comm]
  · rw [(looselyEqual_object o hy).1, (looselyEqual_object o hy).2]
  · rw [(looselyEqual_object o hx).1, (looselyEqual_object o hx).2]
  · exact congrArg pure (decide_eq_decide.mpr eq_comm)

/-- A program that looks at the heap and at the options and does nothing else. -/
def Quiet : Program σ α → Prop
  | done _ => True
  | fail _ => True
  | stop _ => True
  | step e k => (e = .heap ∨ e = .options) ∧ ∀ answer, (k answer).Quiet

theorem Quiet.bind {p : Program σ α} (hp : p.Quiet) {f : α → Program σ β}
    (hf : ∀ a, (f a).Quiet) : (p.bind f).Quiet := by
  induction p with
  | done a => exact hf a
  | fail e => trivial
  | stop s => trivial
  | step e k ih => exact ⟨hp.1, fun answer => ih answer (hp.2 answer)⟩

theorem quiet_effect {e : Effect σ} (h : e = .heap ∨ e = .options) : (effect e).Quiet :=
  ⟨h, fun answer => by cases answer <;> trivial⟩

theorem quiet_traits (o : ObjectId) : (traits o : Program σ Traits).Quiet := by
  refine Quiet.bind ?_ fun c => trivial
  refine (quiet_effect (.inl rfl)).bind fun h => ?_
  cases h.cell o <;> trivial

/-- An object against a value that is none: it is looked at, or it is converted once. -/
theorem looselyEqualObject_cases (o : ObjectId) (v : Value) :
    (looselyEqualObject o v : Program σ Bool).Quiet ∨ ∃ answer : Value → Bool,
      (looselyEqualObject o v : Program σ Bool) =
        (objectToPrimitive o .default).bind fun p => done (answer p) := by
  rw [looselyEqualObject]
  split
  · exact .inl ((quiet_effect (.inr rfl)).bind fun options =>
      (quiet_traits o).bind fun t => trivial)
  · exact .inr ⟨fun p => p.looselyEqual v.unboolean, rfl⟩

/-! ## Rounds -/

/-- One round of loose equality: of the arms that fit, the first one decides. Where an
operand is replaced, `again` goes on with the operands that there are then. -/
def looselyEqualRound (again : Value → Value → Program σ Bool) (x y : Value) : Program σ Bool :=
  if x.type = y.type then pure (x.strictEquals y)
  else
    match x, y with
    | .null, .undefined | .undefined, .null => pure true
    | .object o, .null | .object o, .undefined | .null, .object o | .undefined, .object o => do
      return (← options).htmlDdaObjects && (← traits o).isHtmlDda
    | .number n, .string s | .string s, .number n => pure (n.equals (stringToNumber s))
    | .bigint n, .string s | .string s, .bigint n => pure (stringToBigInt s = some n)
    | .boolean b, y => again (.number (.ofBool b)) y
    | x, .boolean b => again x (.number (.ofBool b))
    | .object o, y =>
      if y.isEqualityPrimitive then do again (← objectToPrimitive o .default) y else pure false
    | x, .object o =>
      if x.isEqualityPrimitive then do again x (← objectToPrimitive o .default) else pure false
    | .bigint n, .number x | .number x, .bigint n => pure (Double.compareInt n x = some .eq)
    | _, _ => pure false

variable (again : Value → Value → Program σ Bool)

/-- **Primitive values** need two rounds, the first of which replaces a boolean. -/
theorem looselyEqualRound_primitives {x y : Value} (hx : x.isObject = false)
    (hy : y.isObject = false) :
    looselyEqualRound^[2] again x y = pure (x.looselyEqual y) := by
  cases x <;> cases hx <;> cases y <;> cases hy <;> rfl

/-- **An object** against a value that it is converted for needs a round more. -/
theorem looselyEqualRound_object (o : ObjectId) {v : Value} (hv : v.isEqualityPrimitive = true) :
    looselyEqualRound^[3] again (.object o) v = looselyEqualObject o v ∧
      looselyEqualRound^[3] again v (.object o) = looselyEqualObject o v := by
  have hobject : v.isObject = false := by cases v <;> first | rfl | cases hv
  have hconvert : looselyEqualObject o v =
      (objectToPrimitive o .default : Program σ Value).bind fun p => pure (p.looselyEqual v) := by
    cases v <;> first | rfl | cases hv
  rw [hconvert]
  have hleft : looselyEqualRound^[3] again (.object o) v =
      (objectToPrimitive o .default).bind fun p => looselyEqualRound^[2] again p v := by
    cases v <;> first | rfl | cases hv
  have hright : looselyEqualRound^[3] again v (.object o) =
      (objectToPrimitive o .default).bind fun p => looselyEqualRound^[2] again v p := by
    cases v <;> first | rfl | cases hv
  have hreturns : (objectToPrimitive o .default : Program σ Value).Returns
      fun v => v.isObject = false := returns_objectToPrimitive o .default
  constructor
  · rw [hleft]
    exact hreturns.bind_congr fun p hp => looselyEqualRound_primitives again hp hobject
  · rw [hright]
    refine hreturns.bind_congr fun p hp => ?_
    rw [looselyEqualRound_primitives again hobject hp, Value.looselyEqual_comm]

/-- **Four rounds** decide every pair of operands. -/
theorem looselyEqualRound_four (x y : Value) :
    looselyEqualRound^[4] again x y = looselyEqual x y := by
  have hobject (o : ObjectId) (v : Value) (hv : v.isObject = false) :
      looselyEqualRound^[4] again (.object o) v = looselyEqualObject o v ∧
        looselyEqualRound^[4] again v (.object o) = looselyEqualObject o v := by
    cases v with
    | object p => cases hv
    | undefined => exact ⟨rfl, rfl⟩
    | null => exact ⟨rfl, rfl⟩
    | boolean b => exact looselyEqualRound_object again o (v := .number (.ofBool b)) rfl
    | _ => exact looselyEqualRound_object (looselyEqualRound again) o rfl
  rcases operands x y with ⟨hx, hy⟩ | ⟨o, rfl, hy⟩ | ⟨o, rfl, hx⟩ | ⟨o, p, rfl, rfl⟩
  · rw [looselyEqual_primitives hx hy]
    exact looselyEqualRound_primitives (looselyEqualRound^[2] again) hx hy
  · rw [(hobject o y hy).1, (looselyEqual_object o hy).1]
  · rw [(hobject o x hx).2, (looselyEqual_object o hx).2]
  · rfl

/-- **Loose equality is symmetric** with all its effects. In either order it is the same
program, and so it ends in the same way and with the same machine, whatever the code outside
does; that code may keep a record of all calls, so that these are the same too. At most one
object is converted, once, if it is the only object among the operands. And the recursion
that loose equality is told by ends after four rounds. -/
theorem looselyEqual_symmetric (x y : Value) :
    (looselyEqual x y : Program σ Bool) = looselyEqual y x ∧
      (∀ (E : Embedder σ) (fuel : Nat) (m : Machine σ),
        Machine.execute E fuel (looselyEqual x y) m =
          Machine.execute E fuel (looselyEqual y x) m) ∧
      ((looselyEqual x y : Program σ Bool).Quiet ∨
        ∃ o v, (x = .object o ∧ y = v ∨ x = v ∧ y = .object o) ∧ v.isObject = false ∧
          ∃ answer : Value → Bool, (looselyEqual x y : Program σ Bool) =
            (objectToPrimitive o .default).bind fun p => done (answer p)) ∧
      ∀ again : Value → Value → Program σ Bool,
        looselyEqualRound^[4] again x y = looselyEqual x y := by
  refine ⟨looselyEqual_comm x y, fun E fuel m => ?_, ?_, fun again =>
    looselyEqualRound_four again x y⟩
  · rw [looselyEqual_comm]
  · rcases operands x y with ⟨hx, hy⟩ | ⟨o, rfl, hy⟩ | ⟨o, rfl, hx⟩ | ⟨o, p, rfl, rfl⟩
    · rw [looselyEqual_primitives hx hy]
      exact .inl trivial
    · rw [(looselyEqual_object o hy).1]
      exact (looselyEqualObject_cases o y).imp_right fun h => ⟨o, y, .inl ⟨rfl, rfl⟩, hy, h⟩
    · rw [(looselyEqual_object o hx).2]
      exact (looselyEqualObject_cases o x).imp_right fun h => ⟨o, x, .inr ⟨rfl, rfl⟩, hx, h⟩
    · exact .inl trivial

end Program

end Ecma
