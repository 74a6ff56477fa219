import Ecma.Operation.Iterator
import Ecma.Proofs.Value.Coercion

/-!
# Closing an iterator

An iterator is closed by calling its `return` method if it has one. The lookup may run a getter
or the code of an exotic object, and the call runs anything. `CallsReturn` says by rules which
requests are made and how this ends: there is **one lookup and at most one call**.

Closing normally and closing because of a failure do the same up to that point. Then the first
passes a failure on and insists on an object, whereas the second gives back **the failure that it
was called with**: what went wrong meanwhile is attached to it, behind what was attached before,
and the result of the call does not matter.
-/

namespace Ecma

namespace Failure

/-- The kind of an error that was raised. -/
def kind? : Failure → Option ErrorKind
  | raised c _ => some c.kind
  | _ => none

/-- What is said of an error that was raised. -/
def message? : Failure → Option String
  | raised c _ => some c.message
  | _ => none

/-- The value that was thrown. -/
def thrown? : Failure → Option Value
  | thrown v _ => some v
  | _ => none

theorem eq_thrown {f : Failure} {v : Value} {s : List Failure} (hv : f.thrown? = some v)
    (hs : f.suppressed = s) : f = thrown v s := by
  cases f with
  | thrown w t => rw [Option.some.inj hv, ← hs]; rfl
  | _ => cases hv

/-- A failure is still the one that it was, with others attached to it behind those that were
attached already. -/
structure Extends (f : Failure) (later : List Failure) (g : Failure) : Prop where
  kind : g.kind? = f.kind?
  message : g.message? = f.message?
  thrown : g.thrown? = f.thrown?
  suppressed : g.suppressed = f.suppressed ++ later

theorem extends_self (f : Failure) : f.Extends [] f :=
  ⟨rfl, rfl, rfl, (List.append_nil _).symm⟩

theorem extends_suppress {f : Failure} (hf : f ≠ badOptions) (later : Failure) :
    f.Extends [later] (f.suppress later) := by
  cases f with
  | raised c s => exact ⟨rfl, rfl, rfl, rfl⟩
  | thrown v s => exact ⟨rfl, rfl, rfl, rfl⟩
  | badOptions => exact absurd rfl hf

end Failure

/-- The failure in which a computation ends, if it does. -/
def Outcome.failures {α : Type} : Outcome α → List Failure
  | failure e => [e]
  | _ => []

namespace Machine

variable {σ : Type}

/-- How the `return` method of an iterator is called: the requests that are made and how it ends,
with the result of the call if there is one. -/
inductive CallsReturn (E : Embedder σ) (fuel : Nat) (o : ObjectId) :
    Machine σ → List Request → Outcome (Option Value) → Machine σ → Prop
  /-- a lookup that ends without a value ends it all -/
  | lookupEnds {m m' : Machine σ} {x : Outcome Value}
      (hget : execute E fuel (Program.get o (.string "return")) m = (x, m'))
      (hx : ∀ v, x ≠ .value v) :
      CallsReturn E fuel o m [.get o (.string "return") (.object o)] (some <$> x) m'
  /-- so does one that leads to no object of the machine -/
  | dangling {m m' : Machine σ} {v : Value}
      (hget : execute E fuel (Program.get o (.string "return")) m = (.value v, m'))
      (hv : m'.callable? v = none) :
      CallsReturn E fuel o m [.get o (.string "return") (.object o)] (.fault .dangling) m'
  /-- there need not be a method -/
  | absent {m m' : Machine σ} {v : Value}
      (hget : execute E fuel (Program.get o (.string "return")) m = (.value v, m'))
      (hv : v.isNullish = true) :
      CallsReturn E fuel o m [.get o (.string "return") (.object o)] (.value none) m'
  /-- what is there must be callable -/
  | notCallable {m m' : Machine σ} {v : Value}
      (hget : execute E fuel (Program.get o (.string "return")) m = (.value v, m'))
      (hnull : v.isNullish = false) (hv : m'.callable? v = some false) :
      CallsReturn E fuel o m [.get o (.string "return") (.object o)]
        (.raise (.notFunction "return")) m'
  /-- it is called for the iterator and without arguments -/
  | called {m m₁ m' : Machine σ} {f : ObjectId} {x : Outcome Value}
      (hget : execute E fuel (Program.get o (.string "return")) m = (.value (.object f), m₁))
      (hf : m₁.callable? (.object f) = some true)
      (hcall : execute E fuel (Program.callObject f (.object o) []) m₁ = (x, m')) :
      CallsReturn E fuel o m
        [.get o (.string "return") (.object o), .call f (.object o) []] (some <$> x) m'

variable {E : Embedder σ} {fuel : Nat} {m m₁ m' : Machine σ}

/-- A method that was found is called once. -/
theorem exists_callsReturn_called {o f : ObjectId}
    (hget : execute E fuel (Program.get o (.string "return")) m = (.value (.object f), m₁))
    (hf : m₁.callable? (.object f) = some true) :
    ∃ l x m', Performs E fuel (do return some (← Program.callObject f (.object o) [])) m₁ l x m' ∧
      CallsReturn E fuel o m (.get o (.string "return") (.object o) :: l) x m' := by
  rcases hcall : execute E fuel (Program.callObject f (.object o) []) m₁ with ⟨v | e | s, m'⟩
  · exact ⟨_, _, m', (performs_callObject hcall).bind (performs_pure _ m'), .called hget hf hcall⟩
  · exact ⟨_, _, m', (performs_callObject hcall).bind_failure _, .called hget hf hcall⟩
  · exact ⟨_, _, m', (performs_callObject hcall).bind_stopped _, .called hget hf hcall⟩

/-- **The method is called** by the rules. -/
theorem exists_callsReturn (E : Embedder σ) (fuel : Nat) (r : IteratorRecord) (m : Machine σ) :
    ∃ l x m', Performs E fuel (Program.callReturn r) m l x m' ∧
      CallsReturn E fuel r.iterator m l x m' := by
  rcases hget : execute E fuel (Program.get r.iterator (.string "return")) m with ⟨v | e | s, m₁⟩
  · have hlookup := performs_get hget
    cases v with
    | undefined => exact ⟨_, _, m₁, (hlookup.bind (performs_pure none m₁)).bind
        (performs_pure none m₁), .absent hget rfl⟩
    | null => exact ⟨_, _, m₁, (hlookup.bind (performs_pure none m₁)).bind
        (performs_pure none m₁), .absent hget rfl⟩
    | object f =>
      have hcallable := performs_isCallableObject E fuel f m₁
      rcases hf : m₁.callable? (.object f) with _ | _ | _ <;> rw [hf] at hcallable
      · exact ⟨_, _, m₁, (hlookup.bind (hcallable.bind_stopped _)).bind_stopped _,
          .dangling hget hf⟩
      · exact ⟨_, _, m₁, (hlookup.bind (hcallable.bind (performs_raise _ m₁))).bind_failure _,
          .notCallable hget rfl hf⟩
      · obtain ⟨l, x, m', hcall, hcalls⟩ := exists_callsReturn_called hget hf
        have hmethod : Performs E fuel (Program.getMethod (.object r.iterator) (.string "return")) m
            [.get r.iterator (.string "return") (.object r.iterator)] (.value (some f)) m₁ :=
          hlookup.bind (hcallable.bind (performs_pure (some f) m₁))
        exact ⟨_, x, m', hmethod.bind hcall, hcalls⟩
    | _ => exact ⟨_, _, m₁, (hlookup.bind (performs_raise _ m₁)).bind_failure _,
        .notCallable hget rfl rfl⟩
  · exact ⟨_, _, m₁, ((performs_get hget).bind_failure _).bind_failure _, .lookupEnds hget nofun⟩
  · exact ⟨_, _, m₁, ((performs_get hget).bind_stopped _).bind_stopped _, .lookupEnds hget nofun⟩

/-- One lookup is made and at most one call, for the iterator and without arguments. -/
theorem CallsReturn.calls_once {o : ObjectId} {l : List Request} {x : Outcome (Option Value)}
    (h : CallsReturn E fuel o m l x m') :
    ∃ calls, l = .get o (.string "return") (.object o) :: calls ∧
      (calls = [] ∨ ∃ f, calls = [.call f (.object o) []]) := by
  cases h with
  | called hget hf hcall => exact ⟨_, rfl, .inr ⟨_, rfl⟩⟩
  | _ => exact ⟨_, rfl, .inl rfl⟩

/-- **How an iterator is closed**, after its `return` method was called with these requests and
this end. -/
structure Closes (E : Embedder σ) (fuel : Nat) (r : IteratorRecord) (m : Machine σ)
    (l : List Request) (x : Outcome (Option Value)) (m' : Machine σ) : Prop where
  /-- a failure of the lookup or the call is passed on as it is -/
  fails : ∀ e, x = .failure e → Performs E fuel (Program.iteratorClose r) m l (.failure e) m'
  /-- the result of the call must be an object -/
  refuses : ∀ v, x = .value (some v) → v.isObject = false →
    ∃ c, c.kind = .type ∧ Performs E fuel (Program.iteratorClose r) m l (.raise c) m'
  /-- in all other cases there is nothing to say -/
  succeeds : ∀ result, x = .value result → (∀ v ∈ result, v.isObject = true) →
    Performs E fuel (Program.iteratorClose r) m l (.value ()) m'
  /-- a failure that is on its way stays, and the failure of the lookup or the call is attached
  to it, and nothing else -/
  keeps : ∀ cause : Failure, cause ≠ .badOptions → (∀ s, x ≠ .stopped s) →
    ∃ f, Performs E fuel (Program.iteratorCloseWith r cause) m l (.value f) m' ∧
      cause.Extends x.failures f
  /-- what stops everything stops this too -/
  stops : ∀ s, x = .stopped s → Performs E fuel (Program.iteratorClose r) m l (.stopped s) m' ∧
    ∀ cause, Performs E fuel (Program.iteratorCloseWith r cause) m l (.stopped s) m'

theorem Performs.closes {r : IteratorRecord} {l : List Request} {x : Outcome (Option Value)}
    (h : Performs E fuel (Program.callReturn r) m l x m') : Closes E fuel r m l x m' where
  fails := by
    rintro e rfl
    exact h.bind_failure _
  refuses := by
    rintro v rfl hv
    refine ⟨.iteratorResultNotObject, rfl, ?_⟩
    rw [← List.append_nil l]
    refine h.bind ?_
    dsimp only
    rw [if_neg (Bool.eq_false_iff.mp hv)]
    exact ⟨rfl, rfl⟩
  succeeds := by
    rintro result rfl hresult
    rw [← List.append_nil l]
    refine h.bind ?_
    cases result with
    | none => exact performs_pure () m'
    | some v =>
      dsimp only
      rw [if_pos (hresult v rfl)]
      exact performs_pure () m'
  keeps := by
    intro cause hcause hx
    rw [← List.append_nil l]
    cases x with
    | value result => exact ⟨cause, h.attempt.bind (performs_pure cause m'), cause.extends_self⟩
    | failure e =>
      exact ⟨_, h.attempt.bind (performs_pure (cause.suppress e) m'),
        Failure.extends_suppress hcause e⟩
    | stopped s => exact absurd rfl (hx s)
  stops := by
    rintro s rfl
    exact ⟨h.bind_stopped _, fun cause => h.attempt.bind_stopped _⟩

/-- **Closing an iterator never loses a failure** that is on its way, whatever the getters,
methods and exotic objects do that are asked meanwhile. The `return` method is looked up once and
called at most once, for the iterator; what becomes of its end is the same for both ways of
closing, except that the one keeps the failure that it was called with, with the new one attached,
and the other has only the new one to pass on. -/
theorem closing_keeps_failure (E : Embedder σ) (fuel : Nat) (r : IteratorRecord)
    (m : Machine σ) :
    ∃ l x m', CallsReturn E fuel r.iterator m l x m' ∧
      (∃ calls, l = .get r.iterator (.string "return") (.object r.iterator) :: calls ∧
        (calls = [] ∨ ∃ f, calls = [.call f (.object r.iterator) []])) ∧
      Closes E fuel r m l x m' := by
  obtain ⟨l, x, m', hperforms, hcalls⟩ := exists_callsReturn E fuel r m
  exact ⟨l, x, m', hcalls, hcalls.calls_once, hperforms.closes⟩

/-- The method throws while a thrown value is on its way that has a failure attached already. -/
theorem closing_keeps_failure_when_return_throws :
    let E : Embedder Nat :=
      { (default : Embedder Nat) with
        call := fun _ _ _ => do
          Program.store ((← Program.load) + 1)
          Program.fail (.thrown (.string "late") []) }
    let p : Program Nat Bool := do
      let o ← Program.allocate (.ordinary none "Object" none false)
      let f ← Program.allocate (.function "return" 0 ⟨0⟩ none)
      Program.defineOwnProperty o (.string "return") (.data (.object f) true true true)
    let m := (execute E 2 p (initial {} 0)).2
    let r : IteratorRecord := ⟨⟨11⟩, .undefined, false⟩
    let cause := Failure.thrown (.string "first") [.ofCause .invalidIndex]
    ∃ f m', execute E 9 (Program.iteratorCloseWith r cause) m = (.value f, m') ∧
      f.thrown? = some (.string "first") ∧
      f.suppressed = [.ofCause .invalidIndex, .thrown (.string "late") []] ∧ m'.host = 1 := by
  intro E p m r cause
  -- closing without a cause tells in what the call ends
  have hclose : (execute E 9 (Program.iteratorClose r) m).1.failures.any (fun e =>
        decide (e.thrown? = some (.string "late")) && e.suppressed.isEmpty) = true ∧
      (execute E 9 (Program.iteratorClose r) m).2.host = 1 := by decide +kernel
  obtain ⟨l, x, m', -, -, hcloses⟩ := closing_keeps_failure E 9 r m
  rcases x with (_ | v) | e | s
  · rw [(hcloses.succeeds none rfl nofun).execute] at hclose
    cases hclose.1
  · cases hv : v.isObject with
    | true =>
      rw [(hcloses.succeeds (some v) rfl fun w hw => Option.some.inj hw ▸ hv).execute] at hclose
      cases hclose.1
    | false =>
      obtain ⟨c, -, hrefused⟩ := hcloses.refuses v rfl hv
      rw [hrefused.execute] at hclose
      cases hclose.1
  · rw [(hcloses.fails e rfl).execute] at hclose
    obtain ⟨hlate, hhost⟩ := hclose
    simp only [Outcome.failures, List.any_cons, List.any_nil, Bool.or_false, Bool.and_eq_true,
      decide_eq_true_eq, List.isEmpty_iff] at hlate
    obtain rfl := Failure.eq_thrown hlate.1 hlate.2
    obtain ⟨f, hperforms, hextends⟩ := hcloses.keeps cause nofun nofun
    exact ⟨f, m', hperforms.execute, hextends.thrown, hextends.suppressed, hhost⟩
  · rw [(hcloses.stops s rfl).1.execute] at hclose
    cases hclose.1

end Machine

end Ecma
