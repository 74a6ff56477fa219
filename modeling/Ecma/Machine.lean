import Ecma.Operation.Conversion
import Ecma.Operation.Ordinary

/-!
# The machine

A machine runs programs. It holds the heap, the options of the realm and the state
of the code outside the model. `Program.run` carries out the effects of a program
one after the other; `respond` is how objects answer requests.

**Fuel.** To answer a request an object may run user code, which may make requests
again, so `respond` counts down a depth. A run that exceeds it is exhausted; it
never ends in another way than it would with more fuel.

**Embedder.** The code of functions and of exotic objects is not part of the
model. An `Embedder` supplies it, as programs: whatever they are, they change
objects only through requests.
-/

namespace Ecma

/-- The state of a run. -/
structure Machine (σ : Type) where
  heap : Heap
  options : RealmOptions
  /-- the state of the code outside the model -/
  host : σ

/-- The code outside the model. -/
structure Embedder (σ : Type) where
  /-- what a function does when it is called -/
  call : CodeId → (this : Value) → (args : List Value) → Program σ Value
  /-- what a function does when it constructs -/
  construct : CodeId → (args : List Value) → (newTarget : ObjectId) → Program σ ObjectId
  /-- how an exotic object answers a request -/
  exotic : HostId → (r : Request) → Program σ r.Answer
  deriving Inhabited

/-- A change of the machine that may end without a value. -/
def Run (σ α : Type) : Type := Machine σ → Outcome α × Machine σ

namespace Run

variable {σ α β : Type}

/-- Go on after a value, from the machine that is left. -/
protected def bind (x : Run σ α) (f : α → Run σ β) : Run σ β := fun m =>
  match x m with
  | (.value a, m) => f a m
  | (.failure e, m) => (.failure e, m)
  | (.stopped s, m) => (.stopped s, m)

instance : Monad (Run σ) where
  pure a := fun m => (.value a, m)
  bind := Run.bind

/-- End with an outcome and leave the machine as it is. -/
def ofOutcome (x : Outcome α) : Run σ α := fun m => (x, m)

/-- A change of the heap that answers. -/
def ofHeap (f : Heap → α × Heap) : Run σ α := fun m =>
  let (a, h) := f m.heap
  (.value a, { m with heap := h })

/-- A change of the heap that may end without a value and then changes nothing. -/
def tryHeap (f : Heap → Outcome (α × Heap)) : Run σ α := fun m =>
  match f m.heap with
  | .value (a, h) => (.value a, { m with heap := h })
  | .failure e => (.failure e, m)
  | .stopped s => (.stopped s, m)

/-- Change the state of an object in a way that answers. -/
def onObject (o : ObjectId) (f : Object → α × Object) : Run σ α :=
  tryHeap fun h => do
    match ← h.cell o with
    | .object state => return ((f state).1, h.modifyObject o fun s => (f s).2)
    | .exotic _ => .fault .dangling

end Run

/-- How effects are carried out. -/
def Handler (σ : Type) : Type := (e : Effect σ) → Run σ e.Answer

/-- Carry out the effects of a program. -/
def Program.run {σ α : Type} (handle : Handler σ) : Program σ α → Run σ α
  | .done a, m => (.value a, m)
  | .fail f, m => (.failure f, m)
  | .stop s, m => (.stopped s, m)
  | .step e k, m =>
    match handle e m with
    | (.value a, m) => (k (.ok a)).run handle m
    | (.failure f, m) => (k (.error f)).run handle m
    | (.stopped s, m) => (.stopped s, m)

namespace Program

variable {σ α β : Type} (handle : Handler σ)

@[simp] theorem run_done (a : α) (m : Machine σ) : (done a).run handle m = (.value a, m) := rfl

@[simp] theorem run_fail (f : Failure) (m : Machine σ) :
    (fail f : Program σ α).run handle m = (.failure f, m) := rfl

@[simp] theorem run_stop (s : Stop) (m : Machine σ) :
    (stop s : Program σ α).run handle m = (.stopped s, m) := rfl

/-- The run of an effect is what the handler makes of it. -/
@[simp] theorem run_effect (e : Effect σ) (m : Machine σ) :
    (effect e).run handle m = handle e m := by
  rw [effect, Program.run]
  rcases handle e m with ⟨a | f | s, m'⟩ <;> rfl

/-- Running a program and going on is going on from where its run ends. -/
theorem run_bind (p : Program σ α) (f : α → Program σ β) (m : Machine σ) :
    (p.bind f).run handle m = Run.bind (p.run handle) (fun a => (f a).run handle) m := by
  induction p generalizing m with
  | done a => rfl
  | fail e => rfl
  | stop s => rfl
  | step e k ih =>
    simp only [step_bind, Program.run, Run.bind]
    rcases handle e m with ⟨a | e | s, m'⟩
    · exact ih (.ok a) m'
    · exact ih (.error e) m'
    · rfl

/-- Going on after a program that ends with a value. -/
theorem run_bind_of_value {p : Program σ α} {m m' : Machine σ} {a : α}
    (hp : p.run handle m = (.value a, m')) (f : α → Program σ β) :
    (p.bind f).run handle m = (f a).run handle m' := by
  rw [run_bind, Run.bind, hp]

/-- Attempting a program runs it as it is and turns a failure into a value. -/
theorem run_attempt (p : Program σ α) (m : Machine σ) :
    p.attempt.run handle m =
      match p.run handle m with
      | (.value a, m) => (.value (.ok a), m)
      | (.failure f, m) => (.value (.error f), m)
      | (.stopped s, m) => (.stopped s, m) := by
  induction p generalizing m with
  | done a => rfl
  | fail e => rfl
  | stop s => rfl
  | step e k ih =>
    simp only [attempt_step, Program.run]
    rcases handle e m with ⟨a | e | s, m'⟩
    · exact ih (.ok a) m'
    · exact ih (.error e) m'
    · rfl

end Program

namespace Machine

variable {σ : Type}

/-! ## Effects -/

/-- Carry out an effect, requests being answered by `answer` and `fuel` steps being
left. -/
def handler (fuel : Nat) (answer : (r : Request) → Run σ r.Answer) : Handler σ
  | .method r => answer r
  | .heap => fun m => (.value m.heap, m)
  | .options => fun m => (.value m.options, m)
  | .budget => fun m => (.value fuel, m)
  | .allocate b => Run.tryHeap fun h => h.create b
  | .freshSymbol description => Run.ofHeap fun h =>
    let (s, table) := h.symbols.fresh description
    (s, { h with symbols := table })
  | .symbolFor key => Run.ofHeap fun h =>
    let (s, table) := h.symbols.forKey key
    (s, { h with symbols := table })
  | .enclose env => Run.ofHeap fun h => h.enclose env
  | .bindings e c => Run.tryHeap fun h => h.bindings e c
  | .bindThis e v => Run.tryHeap fun h => do return ((), ← h.bindThis e v)
  | .declareVar e name => Run.tryHeap fun h => do
    return ((), ← h.modifyGlobal e (·.declareVar name))
  | .forgetVar e name => Run.tryHeap fun h => do
    return ((), ← h.modifyGlobal e (·.forgetVar name))
  | .newGraph => Run.ofHeap Heap.newGraph
  | .dropGraph g => Run.ofHeap fun h => ((), h.setGraph g none)
  | .addModule g specifier => Run.tryHeap fun h => h.addModule g specifier
  | .setStatus g m s => Run.tryHeap fun h => do return ((), ← h.setStatus g m s)
  | .instantiate g m outer => Run.tryHeap fun h => h.instantiate g m outer
  | .load => fun m => (.value m.host, m)
  | .store s => fun m => (.value (), { m with host := s })

/-! ## Objects -/

/-- Give an object another prototype, unless it is not extensible or the chain
would become a circle. -/
def changePrototype (handle : Handler σ) (fuel : Nat) (o : ObjectId) (state : Object)
    (p : Option ObjectId) : Run σ Bool :=
  if p = state.prototype then pure true
  else if !state.extensible then pure false
  else do
    let free ← (Program.chainAvoids o fuel p).run handle
    if free then Run.onObject o fun s => (true, { s with prototype := p }) else pure false

/-- The length that a value asks for. Converting it twice is part of the rule: both
conversions can be observed. -/
def requestedLength (v : Value) : Program σ Nat := do
  let n ← Program.toUint 32 v
  let x ← Program.toNumber v
  if (Double.ofNat n).equals x then return n else Program.raise .invalidArrayLength

/-- Define a property of an array. -/
def defineInArray (handle : Handler σ) (o : ObjectId) (k : PropertyKey) (d : Descriptor) :
    Run σ Bool :=
  if k = Object.lengthKey then
    match d.value with
    | some v => do
      let n ← (requestedLength v).run handle
      Run.onObject o fun s => s.setLength n d
    | none => Run.onObject o fun s => s.define k d
  else Run.onObject o fun s => s.defineInArray k d

/-- How an object of the model answers a request; `state` is its state. -/
def respondObject (E : Embedder σ) (handle : Handler σ) (fuel : Nat) (state : Object) :
    (r : Request) → Run σ r.Answer
  | .getPrototypeOf _ => Run.ofOutcome (.value state.prototype)
  | .setPrototypeOf o p => changePrototype handle fuel o state p
  | .isExtensible _ => Run.ofOutcome (.value state.extensible)
  | .preventExtensions o => Run.onObject o fun s => (true, s.preventExtensions)
  | .getOwnProperty _ k => Run.ofOutcome (.value (state.own? k))
  | .defineOwnProperty o k d =>
    match state.kind with
    | .array => defineInArray handle o k d
    | _ => Run.onObject o fun s => s.define k d
  | .hasProperty o k => (Program.ordinaryHas o k).run handle
  | .get o k receiver => (Program.ordinaryGet o k receiver).run handle
  | .set o k v receiver => (Program.ordinarySet o k v receiver).run handle
  | .delete o k => Run.onObject o fun s => s.delete k
  | .ownKeys _ => Run.ofOutcome (.value state.keys)
  | .isArray _ => Run.ofOutcome (.value state.isArray)
  | .call _ this args =>
    match state.kind with
    | .function _ code _ => (E.call code this args).run handle
    | _ => Run.ofOutcome (.raise (.notFunction state.traits.className))
  | .construct _ args newTarget =>
    match state.kind with
    | .function _ _ (some code) => (E.construct code args newTarget).run handle
    | .function name _ none => Run.ofOutcome (.raise (.notConstructor name))
    | _ => Run.ofOutcome (.raise (.notConstructor state.traits.className))

/-- How objects answer requests, to the given depth. -/
def respond (E : Embedder σ) : Nat → (r : Request) → Run σ r.Answer
  | 0, _ => Run.ofOutcome (.stopped .exhausted)
  | fuel + 1, r => fun m =>
    let handle := handler fuel (respond E fuel)
    match m.heap.cell r.target with
    | .value (.object state) => respondObject E handle fuel state r m
    | .value (.exotic x) => (E.exotic x.host r).run handle m
    | .failure f => (.failure f, m)
    | .stopped s => (.stopped s, m)

/-- A machine with the heap of a new realm. -/
def initial (options : RealmOptions) (host : σ) : Machine σ := ⟨.initial, options, host⟩

/-- Run a program to the given depth of requests. -/
def execute {α : Type} (E : Embedder σ) (fuel : Nat) (p : Program σ α) : Run σ α :=
  p.run (handler fuel (respond E fuel))

variable {α β : Type} (E : Embedder σ) (fuel : Nat)

theorem execute_bind_eq (p : Program σ α) (f : α → Program σ β) (m : Machine σ) :
    execute E fuel (p >>= f) m = Run.bind (execute E fuel p) (fun a => execute E fuel (f a)) m :=
  Program.run_bind _ p f m

theorem execute_bind {E : Embedder σ} {fuel : Nat} {p : Program σ α} {m m' : Machine σ} {a : α}
    (hp : execute E fuel p m = (.value a, m')) (f : α → Program σ β) :
    execute E fuel (p >>= f) m = execute E fuel (f a) m' :=
  Program.run_bind_of_value _ hp f

theorem execute_bind_raise {E : Embedder σ} {fuel : Nat} {p : Program σ α} {m m' : Machine σ}
    {c : Cause} (hp : execute E fuel p m = (.raise c, m')) (f : α → Program σ β) :
    execute E fuel (p >>= f) m = (.raise c, m') := by
  rw [execute] at hp
  rw [execute, Program.bind_eq, Program.run_bind, Run.bind, hp]
  rfl

theorem execute_ofOutcome (x : Outcome α) (m : Machine σ) :
    execute E fuel (Program.ofOutcome x) m = (x, m) := by
  cases x <;> rfl

theorem execute_method (r : Request) (m : Machine σ) :
    execute E fuel (Program.effect (.method r)) m = respond E fuel r m :=
  Program.run_effect _ _ m

theorem execute_heap (m : Machine σ) : execute E fuel Program.heap m = (.value m.heap, m) :=
  Program.run_effect _ _ m

end Machine

end Ecma
