import Ecma.Proofs.Number.Comparison
import Ecma.Proofs.Value.Coercion

/-!
# The four relational operators

Two of the operators compare their operands in the other order and convert the second one
first, which comes to the same as converting from left to right; two of them ask whether the
comparison is decided and false.

So **every operator** converts its left operand, then its right one, and then applies a rule to
two primitive values that runs no code (`RelationalOperator.program_eq`). All four rules come
from one comparison with three answers, of which the third is that the values do not compare
(`Value.Comparable`). Therefore an operator says of `p` and `q` what its mirror image says of
`q` and `p`, and the two operators that include equality hold exactly where the values compare
and the strict operator in the other direction does not hold.
-/

namespace Ecma

/-! ## Values that compare -/

namespace Value

/-- The number that a primitive value becomes is not a number. -/
def becomesNaN (p : Value) : Bool :=
  match p.primitiveToNumber with
  | .ok n => n.isNaN
  | .error _ => false

/-- Two primitive values compare: texts always, an integer with a text that can be read as one,
and other values unless one of them is not a number. -/
def Comparable : Value → Value → Prop
  | string _, string _ => True
  | bigint _, string s => (stringToBigInt s).isSome
  | string s, bigint _ => (stringToBigInt s).isSome
  | p, q => p.becomesNaN = false ∧ q.becomesNaN = false

theorem comparable_comm (p q : Value) : p.Comparable q ↔ q.Comparable p := by
  cases p <;> cases q <;> first | exact and_comm | exact Iff.rfl

end Value

theorem Double.isSome_compareInt (n : Int) (x : Double) :
    (Double.compareInt n x).isSome ↔ x.isNaN = false := by
  rw [Double.compareInt]
  cases x.isNaN with
  | true => simp
  | false =>
    simp only [Bool.false_eq_true, if_false]
    split
    · simp
    · split <;> simp

namespace Numeric

/-- A numeric that is not a number. -/
def isNaN : Numeric → Bool
  | number x => x.isNaN
  | bigint _ => false

theorem isSome_lessThan (a b : Numeric) :
    (a.lessThan b).isSome ↔ a.isNaN = false ∧ b.isNaN = false := by
  cases a with
  | number a =>
    cases b with
    | number b =>
      simp only [lessThan, isNaN]
      cases a.isNaN <;> cases b.isNaN <;> simp
    | bigint b => simp [lessThan, isNaN, Double.isSome_compareInt]
  | bigint a =>
    cases b with
    | number b => simp [lessThan, isNaN, Double.isSome_compareInt]
    | bigint b => simp [lessThan, isNaN]

end Numeric

namespace Value

theorem isNaN_of_primitiveToNumeric {p : Value} {a : Numeric} (h : p.primitiveToNumeric = .ok a) :
    a.isNaN = p.becomesNaN := by
  cases p <;> simp [primitiveToNumeric, primitiveToNumber, Except.map] at h <;> subst h <;> rfl

/-- The comparison is decided exactly if the values compare. -/
theorem isSome_lessThan {p q : Value} {r : Option Bool} (h : p.lessThan q = .ok r) :
    r.isSome ↔ p.Comparable q := by
  rw [lessThan.eq_def] at h
  split at h
  · obtain rfl := Except.ok.inj h
    simp [Comparable]
  · obtain rfl := Except.ok.inj h
    simp [Comparable]
  · obtain rfl := Except.ok.inj h
    simp [Comparable]
  · -- neither two texts nor a text beside an integer: both sides become numerics
    next hstrings hright hleft =>
    rw [Comparable]
    · rcases hp : p.primitiveToNumeric with c | a <;> rw [hp] at h
      · cases h
      rcases hq : q.primitiveToNumeric with c | b <;> rw [hq] at h
      · cases h
      obtain rfl := Except.ok.inj h
      rw [Numeric.isSome_lessThan, isNaN_of_primitiveToNumeric hp, isNaN_of_primitiveToNumeric hq]
    all_goals assumption

end Value

/-! ## Operators -/

theorem Program.ofExcept_bind {σ α β : Type} (r : Except Cause α) (f : α → β) :
    ((ofExcept r : Program σ α).bind fun a => done (f a)) = ofExcept (r.map f) := by
  cases r <;> rfl

/-- The operators that compare two values. -/
inductive RelationalOperator where
  | less
  | greater
  | lessOrEqual
  | greaterOrEqual
  deriving DecidableEq, Repr

namespace RelationalOperator

variable {σ : Type}

/-- What an operator does with its operands. -/
def program : RelationalOperator → Value → Value → Program σ Bool
  | less => Program.lessThan
  | greater => Program.greaterThan
  | lessOrEqual => Program.lessThanOrEqual
  | greaterOrEqual => Program.greaterThanOrEqual

/-- The operator for the operands in the other order. -/
def mirror : RelationalOperator → RelationalOperator
  | less => greater
  | greater => less
  | lessOrEqual => greaterOrEqual
  | greaterOrEqual => lessOrEqual

/-- What an operator says of two primitive values. -/
def rule (op : RelationalOperator) (p q : Value) : Except Cause Bool :=
  match op with
  | less => (p.lessThan q).map fun r => decide (r = some true)
  | greater => (q.lessThan p).map fun r => decide (r = some true)
  | lessOrEqual => (q.lessThan p).map fun r => decide (r = some false)
  | greaterOrEqual => (p.lessThan q).map fun r => decide (r = some false)

theorem rule_mirror (op : RelationalOperator) (p q : Value) : op.mirror.rule q p = op.rule p q := by
  cases op <;> rfl

/-- **From left to right.** An operator converts its left operand, then its right one, and then
applies its rule. -/
theorem program_eq_rule (op : RelationalOperator) (x y : Value) :
    (op.program x y : Program σ Bool) =
      (Program.toPrimitive x .number).bind fun p =>
        (Program.toPrimitive y .number).bind fun q => Program.ofExcept (op.rule p q) := by
  -- `order` is the comparison of the two primitive values in the order that the operator asks for
  have hconverted : ∀ (order : Value → Value → Except Cause (Option Bool)) (answer : Bool),
      (((Program.toPrimitive x .number : Program σ Value).bind fun p =>
          (Program.toPrimitive y .number).bind fun q => Program.ofExcept (order p q)).bind
        fun r => .done (decide (r = some answer))) =
      (Program.toPrimitive x .number).bind fun p => (Program.toPrimitive y .number).bind fun q =>
        Program.ofExcept ((order p q).map fun r => decide (r = some answer)) := by
    intro order answer
    simp only [Program.bind_assoc, Program.ofExcept_bind]
  cases op with
  | less => exact hconverted Value.lessThan true
  | greater => exact hconverted (fun p q => q.lessThan p) true
  | lessOrEqual => exact hconverted (fun p q => q.lessThan p) false
  | greaterOrEqual => exact hconverted Value.lessThan false

/-- On primitive values nothing but the rule is left. -/
theorem program_primitives (op : RelationalOperator) {p q : Value} (hp : p.isObject = false)
    (hq : q.isObject = false) :
    (op.program p q : Program σ Bool) = Program.ofExcept (op.rule p q) := by
  rw [program_eq_rule, Program.toPrimitive_of_not_isObject hp,
    Program.toPrimitive_of_not_isObject hq]
  rfl

theorem program_eq (op : RelationalOperator) (x y : Value) :
    (op.program x y : Program σ Bool) = (do
      let p ← Program.toPrimitive x .number
      let q ← Program.toPrimitive y .number
      op.program p q) := by
  rw [program_eq_rule]
  refine (Program.returns_toPrimitive x .number).bind_congr fun p hp => ?_
  refine (Program.returns_toPrimitive y .number).bind_congr fun q hq => ?_
  exact (op.program_primitives hp hq).symm

theorem program_mirror (op : RelationalOperator) {p q : Value} (hp : p.isObject = false)
    (hq : q.isObject = false) :
    (op.program p q : Program σ Bool) = op.mirror.program q p := by
  rw [program_primitives op hp hq, program_primitives op.mirror hq hp, rule_mirror]

/-! ## Agreement -/

/-- An operator that includes equality beside the strict one in the other direction: both fail
in the same way, or it holds exactly if the values compare and the other one does not hold. -/
def Completes (σ : Type) (strict op : RelationalOperator) (p q : Value) : Prop :=
  (∃ c, (op.program p q : Program σ Bool) = .raise c ∧
    (strict.program p q : Program σ Bool) = .raise c) ∨
  ∃ b b', (op.program p q : Program σ Bool) = pure b ∧
    (strict.program p q : Program σ Bool) = pure b' ∧ (b = true ↔ p.Comparable q ∧ b' = false)

theorem completes_of_rule {strict op : RelationalOperator} {p q : Value}
    (hp : p.isObject = false) (hq : q.isObject = false) {r : Except Cause (Option Bool)}
    (hop : op.rule p q = r.map fun r => decide (r = some false))
    (hstrict : strict.rule p q = r.map fun r => decide (r = some true))
    (hcomparable : ∀ o, r = .ok o → (o.isSome ↔ p.Comparable q)) : Completes σ strict op p q := by
  rw [Completes, program_primitives op hp hq, program_primitives strict hp hq, hop, hstrict]
  rcases r with c | o
  · exact .inl ⟨c, rfl, rfl⟩
  · refine .inr ⟨_, _, rfl, rfl, ?_⟩
    rw [← hcomparable o rfl]
    -- undecided, decided and false, decided and true
    rcases o with _ | _ | _ <;> simp

theorem completes_greater {p q : Value} (hp : p.isObject = false) (hq : q.isObject = false) :
    Completes σ greater lessOrEqual p q :=
  completes_of_rule hp hq rfl rfl fun _ hr =>
    (Value.isSome_lessThan hr).trans (Value.comparable_comm q p)

theorem completes_less {p q : Value} (hp : p.isObject = false) (hq : q.isObject = false) :
    Completes σ less greaterOrEqual p q :=
  completes_of_rule hp hq rfl rfl fun _ hr => Value.isSome_lessThan hr

/-! ## Runs -/

/-- The rule for primitive values asks for nothing and changes nothing. -/
theorem exists_performs_primitives (op : RelationalOperator) {p q : Value}
    (hp : p.isObject = false) (hq : q.isObject = false) (E : Embedder σ) (fuel : Nat)
    (m : Machine σ) : ∃ b, Machine.Performs E fuel (op.program p q) m [] b m := by
  rw [program_primitives op hp hq]
  rcases op.rule p q with c | b
  · exact ⟨.raise c, rfl, rfl⟩
  · exact ⟨.value b, rfl, rfl⟩

/-- An operator converts its operands from left to right and asks for nothing else. -/
structure ConvertsInOrder (E : Embedder σ) (fuel : Nat) (m : Machine σ) (op : RelationalOperator)
    (x y : Value) : Prop where
  /-- if the left operand cannot be converted, the right one is not touched -/
  left_fails : ∀ l e m',
    Machine.Performs E fuel (Program.toPrimitive x .number) m l (.failure e) m' →
    Machine.Performs E fuel (op.program x y) m l (.failure e) m'
  /-- the right operand is converted after the left one -/
  right_fails : ∀ l l' p e m₁ m',
    Machine.Performs E fuel (Program.toPrimitive x .number) m l (.value p) m₁ →
    Machine.Performs E fuel (Program.toPrimitive y .number) m₁ l' (.failure e) m' →
    Machine.Performs E fuel (op.program x y) m (l ++ l') (.failure e) m'
  /-- the answer or failure is that for the primitive values, in either order -/
  both : ∀ l l' p q m₁ m',
    Machine.Performs E fuel (Program.toPrimitive x .number) m l (.value p) m₁ →
    Machine.Performs E fuel (Program.toPrimitive y .number) m₁ l' (.value q) m' →
    p.isObject = false ∧ q.isObject = false ∧
    ∃ b, Machine.Performs E fuel (op.program x y) m (l ++ l') b m' ∧
      Machine.Performs E fuel (op.program p q) m' [] b m' ∧
      Machine.Performs E fuel (op.mirror.program q p) m' [] b m'

theorem convertsInOrder (E : Embedder σ) (fuel : Nat) (m : Machine σ) (op : RelationalOperator)
    (x y : Value) : ConvertsInOrder E fuel m op x y where
  left_fails l e m' hx := by
    rw [program_eq]
    exact hx.bind_failure _
  right_fails l l' p e m₁ m' hx hy := by
    rw [program_eq]
    exact hx.bind (hy.bind_failure _)
  both l l' p q m₁ m' hx hy := by
    have hp : p.isObject = false := (Program.returns_toPrimitive x .number).run hx.execute
    have hq : q.isObject = false := (Program.returns_toPrimitive y .number).run hy.execute
    obtain ⟨b, hb⟩ := op.exists_performs_primitives hp hq E fuel m'
    refine ⟨hp, hq, b, ?_, hb, op.program_mirror hp hq ▸ hb⟩
    have hright := hy.bind hb
    rw [List.append_nil] at hright
    rw [program_eq]
    exact hx.bind hright

/-- **The relational operators agree.** Each of them converts its left operand and then its
right one, and then asks for nothing more; the failure of a conversion is passed on at once.

What an operator says of the primitive values `p` and `q`, an answer or a failure, is what its
mirror image says of `q` and `p`. The operators that include equality hold exactly if the
values compare and the strict operator in the other direction does not hold, unless both
fail. -/
theorem relational_operators_agree :
    (∀ (op : RelationalOperator) (x y : Value), (op.program x y : Program σ Bool) = (do
      let p ← Program.toPrimitive x .number
      let q ← Program.toPrimitive y .number
      op.program p q)) ∧
    (∀ (E : Embedder σ) (fuel : Nat) (m : Machine σ) (op : RelationalOperator) (x y : Value),
      ConvertsInOrder E fuel m op x y) ∧
    ∀ (p q : Value), p.isObject = false → q.isObject = false →
      (∀ op : RelationalOperator, (op.program p q : Program σ Bool) = op.mirror.program q p) ∧
      Completes σ greater lessOrEqual p q ∧ Completes σ less greaterOrEqual p q := by
  refine ⟨program_eq, convertsInOrder, fun p q hp hq => ?_⟩
  exact ⟨fun op => op.program_mirror hp hq, completes_greater hp hq, completes_less hp hq⟩

/-- The operands keep a record of their conversions, and the right one becomes undefined, which
compares with nothing. The record is from left to right, and neither order holds. -/
theorem relational_operators_agree_recorded :
    let E : Embedder (List String) :=
      { (default : Embedder (List String)) with
        call := fun code _ _ => do
          let calls ← Program.load
          Program.store (calls ++ [if code.index = 0 then "left" else "right"])
          return if code.index = 0 then .null else .undefined }
    let p : Program (List String) Bool := do
      let x ← Program.allocate (.ordinary none "Object" none false)
      let y ← Program.allocate (.ordinary none "Object" none false)
      let f ← Program.allocate (.function "valueOf" 0 ⟨0⟩ none)
      let g ← Program.allocate (.function "valueOf" 0 ⟨1⟩ none)
      let _ ← Program.defineOwnProperty x (.string "valueOf") (.data (.object f) true true true)
      Program.defineOwnProperty y (.string "valueOf") (.data (.object g) true true true)
    let m := (Machine.execute E 2 p (.initial {} [])).2
    ∃ l l' m₁ m',
      Machine.Performs E 9 (Program.toPrimitive (.object ⟨11⟩) .number) m l (.value .null) m₁ ∧
      Machine.Performs E 9 (Program.toPrimitive (.object ⟨12⟩) .number) m₁ l' (.value .undefined)
        m' ∧
      Machine.Performs E 9 (Program.lessThanOrEqual (.object ⟨11⟩) (.object ⟨12⟩)) m (l ++ l')
        (.value false) m' ∧
      m'.host = ["left", "right"] := by
  intro E p m
  have hleft : (match (Machine.execute E 9 (Program.toPrimitive (.object ⟨11⟩) .number) m).1 with
      | .value v => decide (v = .null)
      | _ => false) = true := by decide +kernel
  have hright : (match (Machine.execute E 9 (Program.toPrimitive (.object ⟨12⟩) .number)
        (Machine.execute E 9 (Program.toPrimitive (.object ⟨11⟩) .number) m).2) with
      | (.value v, m') => decide (v = .undefined) && decide (m'.host = ["left", "right"])
      | _ => false) = true := by decide +kernel
  rcases hx : Machine.execute E 9 (Program.toPrimitive (.object ⟨11⟩) .number) m with
    ⟨v | e | s, m₁⟩ <;> rw [hx] at hleft hright
  · obtain rfl := of_decide_eq_true hleft
    dsimp only at hright
    rcases hy : Machine.execute E 9 (Program.toPrimitive (.object ⟨12⟩) .number) m₁ with
      ⟨w | e | s, m'⟩ <;> rw [hy] at hright
    · simp only [Bool.and_eq_true, decide_eq_true_eq] at hright
      obtain ⟨rfl, hhost⟩ := hright
      obtain ⟨-, -, b, hb, hanswer, -⟩ :=
        (relational_operators_agree.2.1 E 9 m lessOrEqual (.object ⟨11⟩) (.object ⟨12⟩)).both
          _ _ _ _ m₁ m' ⟨rfl, hx⟩ ⟨rfl, hy⟩
      obtain ⟨rfl, -⟩ := Prod.mk.inj hanswer.execute
      exact ⟨_, _, m₁, m', ⟨rfl, hx⟩, ⟨rfl, hy⟩, hb, hhost⟩
    all_goals cases hright
  all_goals cases hleft

end RelationalOperator

end Ecma
