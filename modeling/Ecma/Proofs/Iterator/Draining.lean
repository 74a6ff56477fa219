import Ecma.Operation.Iterator
import Ecma.Proofs.Value.Coercion

/-!
# Draining an iterable

To list what an iterable has to give, its method is asked for an iterator, the `next` method of
the iterator is read **once**, and that method is called until a result says that the iteration
is over. All of this runs code that may do anything, such as putting another `next` method into
the iterator.

The rules here say what is met on the way: how the iteration is opened (`Opens`), a result
(`GivesResult`), results with their values one after the other (`GivesValues`), and the ways in
which a round can fail (`FailsToGive`). Each of them mentions the machine as it is by then. **What
is met is what is listed** (`performs_drain`): the requests of the whole loop are those of its
rounds, one after the other, and nothing is asked for after the end or a failure.
-/

namespace Ecma

/-- Whether a computation ended with a given value can be decided. -/
instance Outcome.decidableEqValue {α : Type} [DecidableEq α] (x : Outcome α) (a : α) :
    Decidable (x = .value a) :=
  match x with
  | .value b => decidable_of_iff (b = a) ⟨congrArg _, Outcome.value.inj⟩
  | .failure _ => isFalse nofun
  | .stopped _ => isFalse nofun

/-- The call of the `next` method that was read, if it is an object at all. -/
def IteratorRecord.nextCall (r : IteratorRecord) : List Request :=
  match r.next with
  | .object f => [.call f (.object r.iterator) []]
  | _ => []

/-- What is asked for in a step that gets a result. -/
def IteratorRecord.step (r : IteratorRecord) (result : ObjectId) : List Request :=
  r.nextCall ++ [.get result (.string "done") (.object result)]

/-- What is asked for in a round that gets a value. -/
def IteratorRecord.round (r : IteratorRecord) (result : ObjectId) : List Request :=
  r.step result ++ [.get result (.string "value") (.object result)]

namespace Machine

variable {σ : Type}

/-! ## What is met on the way -/

/-- How an iteration is opened, with the method that is given or with the one that the value has:
the requests that are made and the record of the iteration. -/
inductive Opens (E : Embedder σ) (fuel : Nat) (v : Value) :
    Option ObjectId → Machine σ → List Request → IteratorRecord → Machine σ → Prop
  /-- the method gives an object, and its `next` method is read -/
  | given {f iterator : ObjectId} {next : Value} {m m₁ m' : Machine σ}
      (hcall : execute E fuel (Program.callObject f v []) m = (.value (.object iterator), m₁))
      (hnext : execute E fuel (Program.get iterator (.string "next")) m₁ = (.value next, m')) :
      Opens E fuel v (some f) m [.call f v [], .get iterator (.string "next") (.object iterator)]
        ⟨iterator, next, false⟩ m'
  /-- the method is looked up on the object that the value is or becomes -/
  | found {o f : ObjectId} {m m₀ m₁ m' : Machine σ} {l : List Request} {r : IteratorRecord}
      (hobject : execute E fuel (Program.toObject v) m = (.value o, m₀))
      (hmethod : execute E fuel (Program.getMethod v (.wellKnown .iterator)) m =
        (.value (some f), m₁))
      (h : Opens E fuel v (some f) m₁ l r m') :
      Opens E fuel v none m (.get o (.wellKnown .iterator) v :: l) r m'

/-- A call of the `next` method gives a result, and the result says whether the iteration is
over. -/
inductive GivesResult (E : Embedder σ) (fuel : Nat) (r : IteratorRecord) :
    Machine σ → ObjectId → Bool → Machine σ → Prop
  | intro {f result : ObjectId} {done : Value} {last : Bool} {m m₁ m' : Machine σ}
      (hf : r.next = .object f) (hcallable : m.callable? r.next = some true)
      (hcall : execute E fuel (Program.callObject f (.object r.iterator) []) m =
        (.value (.object result), m₁))
      (hdone : execute E fuel (Program.get result (.string "done")) m₁ = (.value done, m'))
      (hlast : execute E fuel (Program.toBoolean done) m' = (.value last, m')) :
      GivesResult E fuel r m result last m'

/-- Calls of the `next` method give results with values, and none of them says that the
iteration is over. -/
inductive GivesValues (E : Embedder σ) (fuel : Nat) (r : IteratorRecord) :
    Machine σ → List (ObjectId × Value) → Machine σ → Prop
  | nil (m : Machine σ) : GivesValues E fuel r m [] m
  | cons {result : ObjectId} {v : Value} {rest : List (ObjectId × Value)} {m m₁ m₂ m' : Machine σ}
      (hresult : GivesResult E fuel r m result false m₁)
      (hvalue : execute E fuel (Program.get result (.string "value")) m₁ = (.value v, m₂))
      (h : GivesValues E fuel r m₂ rest m') : GivesValues E fuel r m ((result, v) :: rest) m'

/-- A step fails: the requests that are made and the failure. -/
inductive StepFails (E : Embedder σ) (fuel : Nat) (r : IteratorRecord) :
    Machine σ → List Request → Failure → Machine σ → Prop
  /-- there is nothing to call -/
  | notCallable {m : Machine σ} (hcallable : m.callable? r.next = some false) :
      StepFails E fuel r m [] (.ofCause (.notFunction (r.next.toTextWith m.heap.className))) m
  /-- the call fails -/
  | call {f : ObjectId} {e : Failure} {m m' : Machine σ} (hf : r.next = .object f)
      (hcallable : m.callable? r.next = some true)
      (hcall : execute E fuel (Program.callObject f (.object r.iterator) []) m = (.failure e, m')) :
      StepFails E fuel r m r.nextCall e m'
  /-- the call gives something that is not an object -/
  | notObject {f : ObjectId} {v : Value} {m m' : Machine σ} (hf : r.next = .object f)
      (hcallable : m.callable? r.next = some true)
      (hcall : execute E fuel (Program.callObject f (.object r.iterator) []) m = (.value v, m'))
      (hv : v.isObject = false) :
      StepFails E fuel r m r.nextCall (.ofCause .iteratorResultNotObject) m'
  /-- the result cannot be asked whether the iteration is over -/
  | done {f result : ObjectId} {e : Failure} {m m₁ m' : Machine σ} (hf : r.next = .object f)
      (hcallable : m.callable? r.next = some true)
      (hcall : execute E fuel (Program.callObject f (.object r.iterator) []) m =
        (.value (.object result), m₁))
      (hdone : execute E fuel (Program.get result (.string "done")) m₁ = (.failure e, m')) :
      StepFails E fuel r m (r.step result) e m'

/-- A round fails: in its step, or because the value of the result cannot be read. -/
inductive FailsToGive (E : Embedder σ) (fuel : Nat) (r : IteratorRecord) :
    Machine σ → List Request → Failure → Machine σ → Prop
  | step {l : List Request} {e : Failure} {m m' : Machine σ} (h : StepFails E fuel r m l e m') :
      FailsToGive E fuel r m l e m'
  | value {result : ObjectId} {e : Failure} {m m₁ m' : Machine σ}
      (hresult : GivesResult E fuel r m result false m₁)
      (hvalue : execute E fuel (Program.get result (.string "value")) m₁ = (.failure e, m')) :
      FailsToGive E fuel r m (r.round result) e m'

variable {E : Embedder σ} {fuel : Nat} {v : Value} {r : IteratorRecord} {m m₁ m' : Machine σ}
  {l : List Request} {result : ObjectId} {e : Failure}

/-! ## Calls of the method -/

/-- What can be called is called. -/
theorem performs_call {f : ObjectId} (hf : m.callable? (.object f) = some true) {this : Value}
    {args : List Value} {x : Outcome Value}
    (h : execute E fuel (Program.callObject f this args) m = (x, m')) :
    Performs E fuel (Program.call (.object f) this args) m [.call f this args] x m' := by
  have hcallable := performs_isCallableObject E fuel f m
  rw [hf] at hcallable
  exact hcallable.bind (performs_callObject h)

/-- What cannot be called is not asked for anything. -/
theorem performs_call_refused (hv : m.callable? v = some false) (this : Value)
    (args : List Value) :
    Performs E fuel (Program.call v this args) m []
      (.raise (.notFunction (v.toTextWith m.heap.className))) m := by
  have htext : Performs E fuel (Program.valueText v) m []
      (.value (v.toTextWith m.heap.className)) m :=
    (performs_heap m).bind (performs_pure _ m)
  have hraise : Performs E fuel (do Program.raise (.notFunction (← Program.valueText v))) m []
      (.raise (.notFunction (v.toTextWith m.heap.className)) : Outcome Value) m :=
    htext.bind (performs_raise _ m)
  cases v with
  | object f =>
    have hcallable := performs_isCallableObject E fuel f m
    rw [hv] at hcallable
    exact hcallable.bind hraise
  | _ => exact hraise

/-! ## One step -/

theorem nextCall_eq {f : ObjectId} (hf : r.next = .object f) :
    r.nextCall = [.call f (.object r.iterator) []] := by
  rw [IteratorRecord.nextCall, hf]

theorem GivesResult.exists_next {last : Bool} (h : GivesResult E fuel r m result last m') :
    ∃ f, r.next = .object f := by
  cases h with
  | intro hf _ _ _ _ => exact ⟨_, hf⟩

/-- Whether a value counts as true is looked up without asking for anything. -/
theorem performs_toBoolean {b : Bool}
    (h : execute E fuel (Program.toBoolean v) m = (.value b, m)) :
    Performs E fuel (Program.toBoolean v) m [] (.value b) m := by
  refine ⟨requests_of_quiet ?_ m, h⟩
  cases v with
  | object o => exact (Program.quiet_traits o).bind fun t => trivial
  | _ => trivial

/-- The method that was read is called, for the iterator and without arguments. -/
theorem performs_iteratorNext {f : ObjectId} (hf : r.next = .object f)
    (hcallable : m.callable? r.next = some true)
    (hcall : execute E fuel (Program.callObject f (.object r.iterator) []) m =
      (.value (.object result), m')) :
    Performs E fuel (Program.iteratorNext r []) m r.nextCall (.value result) m' := by
  rw [hf] at hcallable
  rw [nextCall_eq hf, Program.iteratorNext, hf]
  exact (performs_call hcallable hcall).bind (performs_pure result m')

theorem GivesResult.performs {last : Bool} (h : GivesResult E fuel r m result last m') :
    Performs E fuel (Program.nextResult r) m (r.step result)
      (.value (if last then none else some result)) m' := by
  cases h with
  | intro hf hcallable hcall hdone hlast =>
    have hcomplete := (performs_get hdone).bind (performs_toBoolean hlast)
    refine (performs_iteratorNext hf hcallable hcall).bind (hcomplete.bind ?_)
    cases last
    · exact performs_pure (some result) m'
    · exact performs_pure none m'

theorem StepFails.performs (h : StepFails E fuel r m l e m') :
    Performs E fuel (Program.nextResult r) m l (.failure e) m' := by
  cases h with
  | notCallable hcallable =>
    exact ((performs_call_refused hcallable _ _).bind_failure _).bind_failure _
  | call hf hcallable hcall =>
    rw [hf] at hcallable
    rw [nextCall_eq hf, Program.nextResult, Program.iteratorNext, hf]
    exact ((performs_call hcallable hcall).bind_failure _).bind_failure _
  | @notObject f v _ _ hf hcallable hcall hv =>
    rw [hf] at hcallable
    rw [nextCall_eq hf, Program.nextResult, Program.iteratorNext, hf]
    refine ((performs_call hcallable hcall).bind ?_).bind_failure _
    cases v with
    | object o => cases hv
    | _ => exact performs_raise _ m'
  | done hf hcallable hcall hdone =>
    refine (performs_iteratorNext hf hcallable hcall).bind ?_
    exact ((performs_get hdone).bind_failure _).bind_failure _

/-- A step that gives a result leaves the record as it is. -/
theorem GivesResult.performs_step (h : GivesResult E fuel r m result false m') :
    Performs E fuel (Program.iteratorStep r) m (r.step result) (.value (r, .ok (some result)))
      m' := by
  rw [← List.append_nil (r.step result)]
  exact h.performs.attempt.bind (performs_pure _ m')

/-- At the end the record is marked done. -/
theorem GivesResult.performs_last_step (h : GivesResult E fuel r m result true m') :
    Performs E fuel (Program.iteratorStep r) m (r.step result)
      (.value ({ r with done := true }, .ok none)) m' := by
  rw [← List.append_nil (r.step result)]
  exact h.performs.attempt.bind (performs_pure _ m')

/-- A failure marks the record done. -/
theorem StepFails.performs_step (h : StepFails E fuel r m l e m') :
    Performs E fuel (Program.iteratorStep r) m l (.value ({ r with done := true }, .error e))
      m' := by
  rw [← List.append_nil l]
  exact h.performs.attempt.bind (performs_pure _ m')

/-- A step turns what becomes of a result into a mark and an answer. -/
theorem execute_iteratorStep (r : IteratorRecord) (m : Machine σ) :
    execute E fuel (Program.iteratorStep r) m =
      match execute E fuel (Program.nextResult r) m with
      | (.value (some result), m') => (.value (r, .ok (some result)), m')
      | (.value none, m') => (.value ({ r with done := true }, .ok none), m')
      | (.failure e, m') => (.value ({ r with done := true }, .error e), m')
      | (.stopped s, m') => (.stopped s, m') := by
  rw [Program.iteratorStep, execute_bind_eq, Run.bind, execute, Program.run_attempt, execute]
  rcases (Program.nextResult r).run (handler fuel (respond E fuel)) m with
    ⟨(_ | result) | e | s, m'⟩ <;> rfl

/-- **The mark.** A step itself never fails, and it marks the record done exactly if there is no
result. -/
theorem iteratorStep_done (hr : r.done = false)
    {x : Outcome (IteratorRecord × Except Failure (Option ObjectId))}
    (h : execute E fuel (Program.iteratorStep r) m = (x, m')) :
    (∀ e, x ≠ .failure e) ∧ ∀ r' answer, x = .value (r', answer) →
      r'.iterator = r.iterator ∧ r'.next = r.next ∧
        (r'.done = true ↔ answer = .ok none ∨ ∃ e, answer = .error e) := by
  rw [execute_iteratorStep] at h
  rcases hrun : execute E fuel (Program.nextResult r) m with ⟨(_ | result) | e | s, m₁⟩ <;>
    rw [hrun] at h <;> obtain ⟨rfl, -⟩ := Prod.mk.inj h <;> refine ⟨nofun, ?_⟩ <;> rintro _ _ ⟨⟩
  · exact ⟨rfl, rfl, iff_of_true rfl (.inl rfl)⟩
  · exact ⟨rfl, rfl, by simp [hr]⟩
  · exact ⟨rfl, rfl, iff_of_true rfl (.inr ⟨e, rfl⟩)⟩

/-! ## The whole loop -/

section

variable {acc : List Value} {x : Outcome (List Value)}

/-- A round takes one step and reads one value. -/
theorem GivesResult.performs_round {n : Nat} (hresult : GivesResult E fuel r m result false m₁)
    {m₂ : Machine σ}
    (hvalue : execute E fuel (Program.get result (.string "value")) m₁ = (.value v, m₂))
    (hrest : Performs E fuel (Program.drain n r (v :: acc)) m₂ l x m') :
    Performs E fuel (Program.drain (n + 1) r acc) m (r.round result ++ l) x m' := by
  rw [IteratorRecord.round, List.append_assoc]
  exact hresult.performs_step.bind ((performs_get hvalue).bind hrest)

/-- **Rounds.** Values that are given are listed, and the loop goes on from there. -/
theorem GivesValues.performs_drain {results : List (ObjectId × Value)}
    (h : GivesValues E fuel r m results m₁) {n : Nat}
    (hrest : Performs E fuel (Program.drain n r ((results.map Prod.snd).reverse ++ acc)) m₁ l x
      m') :
    Performs E fuel (Program.drain (n + results.length) r acc) m
      (results.flatMap (fun given => r.round given.1) ++ l) x m' := by
  -- on the rounds: each of them uses up one step of the loop and puts one value into `acc`
  induction h generalizing acc with
  | nil m => simpa using hrest
  | cons hresult hvalue h ih =>
    rw [List.flatMap_cons, List.append_assoc]
    exact hresult.performs_round hvalue (ih (by simpa using hrest))

/-- At the end the values are in the order in which they were given. -/
theorem GivesResult.performs_end (n : Nat) (acc : List Value)
    (h : GivesResult E fuel r m result true m') :
    Performs E fuel (Program.drain (n + 1) r acc) m (r.step result) (.value acc.reverse) m' := by
  rw [← List.append_nil (r.step result)]
  exact h.performs_last_step.bind (performs_pure _ m')

/-- A failure is passed on as it is. -/
theorem FailsToGive.performs_drain (n : Nat) (h : FailsToGive E fuel r m l e m') :
    Performs E fuel (Program.drain (n + 1) r acc) m l (.failure e) m' := by
  cases h with
  | step h =>
    rw [← List.append_nil l]
    exact h.performs_step.bind ⟨rfl, rfl⟩
  | value hresult hvalue =>
    exact hresult.performs_step.bind ((performs_get hvalue).bind_failure _)

end

/-! ## The opening -/

theorem Opens.performs {method : Option ObjectId} (h : Opens E fuel v method m l r m') :
    Performs E fuel (match method with
      | some f => Program.getIteratorFrom v f
      | none => Program.getIterator v) m l (.value r) m' := by
  induction h with
  | given hcall hnext =>
    exact (performs_callObject hcall).bind ((performs_get hnext).bind (performs_pure _ _))
  | found hobject hmethod _ ih => exact (performs_getMethod_of hobject hmethod).bind ih

/-- Once an iteration is opened, the steps that are left are for the loop. -/
theorem Opens.performs_iterableToList {method : Option ObjectId} {x : Outcome (List Value)}
    {l' : List Request} {m₂ : Machine σ} (h : Opens E fuel v method m l r m₁)
    (hdrain : Performs E fuel (Program.drain fuel r []) m₁ l' x m₂) :
    Performs E fuel (Program.iterableToList v method) m (l ++ l') x m₂ := by
  have hbudget : Performs E fuel Program.budget m₁ [] (.value fuel) m₁ :=
    ⟨Program.log_effect _ _ _ m₁, Program.run_effect _ _ m₁⟩
  have hopen := h.performs
  cases method with
  | some f => exact hopen.bind (hbudget.bind hdrain)
  | none => exact hopen.bind (hbudget.bind hdrain)

/-- **Draining an iterable.** Take an iteration that is opened, with the method that is given or
with the one that the value has, and whose `next` method, as it was read then, gives some results
with values, one after the other, whatever else the code does that runs meanwhile.

* If the next result says that the iteration is over, the list has those values in that order.
  The method was called once for each value and once for the end, for the iterator and without
  arguments; of the last result only `done` was read, and nothing else was asked for.
* If the next call fails, or gives something that is not an object, or if `done` or the value
  cannot be read, the failure is passed on as it is and nothing else is asked for.

A step marks the record done exactly if it says that the iteration is over or fails. -/
theorem iterable_drained :
    (∀ (E : Embedder σ) (fuel : Nat) (v : Value) (method : Option ObjectId) (m m₁ m₂ : Machine σ)
      (l : List Request) (r : IteratorRecord) (results : List (ObjectId × Value)),
      Opens E fuel v method m l r m₁ → GivesValues E fuel r m₁ results m₂ →
      results.length < fuel →
      (∀ last m₃, GivesResult E fuel r m₂ last true m₃ →
        (∃ f, r.nextCall = [.call f (.object r.iterator) []]) ∧
        Performs E fuel (Program.iterableToList v method) m
          (l ++ results.flatMap (fun given => r.round given.1) ++ r.step last)
          (.value (results.map Prod.snd)) m₃) ∧
      ∀ l' e m₃, FailsToGive E fuel r m₂ l' e m₃ →
        Performs E fuel (Program.iterableToList v method) m
          (l ++ results.flatMap (fun given => r.round given.1) ++ l') (.failure e) m₃) ∧
    Cause.iteratorResultNotObject.kind = .type ∧
    ∀ (E : Embedder σ) (fuel : Nat) (r : IteratorRecord) (m m' : Machine σ)
      (x : Outcome (IteratorRecord × Except Failure (Option ObjectId))), r.done = false →
      execute E fuel (Program.iteratorStep r) m = (x, m') →
      (∀ e, x ≠ .failure e) ∧ ∀ r' answer, x = .value (r', answer) →
        r'.iterator = r.iterator ∧ r'.next = r.next ∧
          (r'.done = true ↔ answer = .ok none ∨ ∃ e, answer = .error e) := by
  refine ⟨?_, rfl, fun E fuel r m m' x hr h => iteratorStep_done hr h⟩
  intro E fuel v method m m₁ m₂ l r results hopen hvalues hfuel
  obtain ⟨n, hn⟩ : ∃ n, n + 1 + results.length = fuel := ⟨fuel - results.length - 1, by omega⟩
  have hdrain {l' : List Request} {x : Outcome (List Value)} {m₃ : Machine σ}
      (hrest : Performs E fuel (Program.drain (n + 1) r ((results.map Prod.snd).reverse ++ [])) m₂
        l' x m₃) :
      Performs E fuel (Program.iterableToList v method) m
        (l ++ results.flatMap (fun given => r.round given.1) ++ l') x m₃ := by
    have hrounds := hvalues.performs_drain hrest
    rw [hn] at hrounds
    rw [List.append_assoc]
    exact hopen.performs_iterableToList hrounds
  refine ⟨fun last m₃ hlast => ⟨?_, hdrain ?_⟩, fun l' e m₃ hfails =>
    hdrain (hfails.performs_drain n)⟩
  · obtain ⟨f, hf⟩ := hlast.exists_next
    exact ⟨f, nextCall_eq hf⟩
  · have hend := hlast.performs_end n ((results.map Prod.snd).reverse ++ [])
    simpa only [List.append_nil, List.reverse_reverse] using hend

/-- The `next` method drops itself from the iterator when it is called. It is called a second time
all the same, since it was read at the start. -/
theorem iterable_drained_without_next :
    let E : Embedder Nat :=
      { (default : Embedder Nat) with
        call := fun code _ _ => do
          if code.index = 0 then return .object ⟨13⟩
          else
            let calls ← Program.load
            Program.store (calls + 1)
            let _ ← Program.delete ⟨13⟩ (.string "next")
            return .object (← Program.createIterResult (.string "a") (0 < calls)) }
    let p : Program Nat Bool := do
      let o ← Program.newObject
      let f ← Program.allocate (.function "iterator" 0 ⟨0⟩ none)
      let iterator ← Program.newObject
      let g ← Program.allocate (.function "next" 0 ⟨1⟩ none)
      let _ ← Program.defineOwnProperty o (.wellKnown .iterator) (.ofValue (.object f))
      Program.defineOwnProperty iterator (.string "next") (.data (.object g) true true true)
    let m := (execute E 2 p (initial {} 0)).2
    ∃ m', Performs E 9 (Program.iterableToList (.object ⟨11⟩) none) m
        [.get ⟨11⟩ (.wellKnown .iterator) (.object ⟨11⟩), .call ⟨12⟩ (.object ⟨11⟩) [],
          .get ⟨13⟩ (.string "next") (.object ⟨13⟩),
          .call ⟨14⟩ (.object ⟨13⟩) [], .get ⟨15⟩ (.string "done") (.object ⟨15⟩),
          .get ⟨15⟩ (.string "value") (.object ⟨15⟩),
          .call ⟨14⟩ (.object ⟨13⟩) [], .get ⟨16⟩ (.string "done") (.object ⟨16⟩)]
        (.value [.string "a"]) m' ∧
      m'.host = 2 := by
  intro E p m
  have hends : ∀ {α : Type} (q : Program Nat α) (m : Machine Nat) (a : α),
      (execute E 9 q m).1 = .value a → execute E 9 q m = (.value a, (execute E 9 q m).2) :=
    fun q m a h => Prod.ext h rfl
  let r : IteratorRecord := ⟨⟨13⟩, .object ⟨14⟩, false⟩
  -- the method is found and called, and `next` is read
  let m₁ := (execute E 9 (Program.getMethod (.object ⟨11⟩) (.wellKnown .iterator)) m).2
  let m₂ := (execute E 9 (Program.callObject ⟨12⟩ (.object ⟨11⟩) []) m₁).2
  let m₃ := (execute E 9 (Program.get ⟨13⟩ (.string "next")) m₂).2
  have hmethod : execute E 9 (Program.getMethod (.object ⟨11⟩) (.wellKnown .iterator)) m =
      (.value (some ⟨12⟩), m₁) := hends _ m _ (by decide +kernel)
  have hiterator : execute E 9 (Program.callObject ⟨12⟩ (.object ⟨11⟩) []) m₁ =
      (.value (.object ⟨13⟩), m₂) := hends _ m₁ _ (by decide +kernel)
  have hnext : execute E 9 (Program.get ⟨13⟩ (.string "next")) m₂ =
      (.value (.object ⟨14⟩), m₃) := hends _ m₂ _ (by decide +kernel)
  -- the first call gives a value
  let m₄ := (execute E 9 (Program.callObject ⟨14⟩ (.object ⟨13⟩) []) m₃).2
  let m₅ := (execute E 9 (Program.get ⟨15⟩ (.string "done")) m₄).2
  let m₆ := (execute E 9 (Program.get ⟨15⟩ (.string "value")) m₅).2
  have hcall : execute E 9 (Program.callObject ⟨14⟩ (.object ⟨13⟩) []) m₃ =
      (.value (.object ⟨15⟩), m₄) := hends _ m₃ _ (by decide +kernel)
  have hdone : execute E 9 (Program.get ⟨15⟩ (.string "done")) m₄ =
      (.value (.boolean false), m₅) := hends _ m₄ _ (by decide +kernel)
  have hvalue : execute E 9 (Program.get ⟨15⟩ (.string "value")) m₅ =
      (.value (.string "a"), m₆) := hends _ m₅ _ (by decide +kernel)
  -- the second call gives the end
  let m₇ := (execute E 9 (Program.callObject ⟨14⟩ (.object ⟨13⟩) []) m₆).2
  let m₈ := (execute E 9 (Program.get ⟨16⟩ (.string "done")) m₇).2
  have hcall' : execute E 9 (Program.callObject ⟨14⟩ (.object ⟨13⟩) []) m₆ =
      (.value (.object ⟨16⟩), m₇) := hends _ m₆ _ (by decide +kernel)
  have hdone' : execute E 9 (Program.get ⟨16⟩ (.string "done")) m₇ =
      (.value (.boolean true), m₈) := hends _ m₇ _ (by decide +kernel)
  have hcallable : m₃.callable? (.object ⟨14⟩) = some true ∧
    m₆.callable? (.object ⟨14⟩) = some true := by decide +kernel
  have hhost : m₈.host = 2 := by decide +kernel
  clear_value m m₁ m₂ m₃ m₄ m₅ m₆ m₇ m₈
  have hvalues : GivesValues E 9 r m₃ [(⟨15⟩, .string "a")] m₆ :=
    .cons (.intro rfl hcallable.1 hcall hdone rfl) hvalue (.nil m₆)
  have hlast : GivesResult E 9 r m₆ ⟨16⟩ true m₈ := .intro rfl hcallable.2 hcall' hdone' rfl
  have hdrained := iterable_drained.1 E 9 (.object ⟨11⟩) none m m₃ m₆ _ r _
    (.found rfl hmethod (.given hiterator hnext)) hvalues (by decide)
  exact ⟨m₈, (hdrained.1 _ m₈ hlast).2, hhost⟩

end Machine

end Ecma
