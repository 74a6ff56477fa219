import Ecma.Proofs.Machine.Timeline

/-!
# The requests of a run

The code of functions and of exotic objects runs when an object answers a request, and at no
other time. So the requests of a run tell which code has run, for whom and in which order.

`requests E fuel p m` lists the requests that a program makes itself; `consulted E fuel p m`
has also those that were made to answer them, to every depth, each after the request that it
was made for. Both are **logs**: every effect makes its entries, and going on after a program
adds to its log (`log_bind`). A program that does not end with a value adds nothing more.
-/

namespace Ecma

namespace Program

variable {σ α β ι : Type}

/-- The entries that the effects of a program make, one after the other. -/
def log (handle : Handler σ) (entry : Effect σ → Machine σ → List ι) :
    Program σ α → Machine σ → List ι
  | done _, _ => []
  | fail _, _ => []
  | stop _, _ => []
  | step e k, m =>
    entry e m ++
      match handle e m with
      | (.value a, m) => (k (.ok a)).log handle entry m
      | (.failure f, m) => (k (.error f)).log handle entry m
      | (.stopped _, _) => []

variable (handle : Handler σ) (entry : Effect σ → Machine σ → List ι)

theorem log_effect (e : Effect σ) (m : Machine σ) :
    (effect e).log handle entry m = entry e m := by
  rw [effect, log]
  rcases handle e m with ⟨a | f | s, m'⟩ <;> exact List.append_nil _

/-- Going on after a program adds to its log, if there is a value to go on with. -/
theorem log_bind (p : Program σ α) (f : α → Program σ β) (m : Machine σ) :
    (p.bind f).log handle entry m = p.log handle entry m ++
      match p.run handle m with
      | (.value a, m) => (f a).log handle entry m
      | (.failure _, _) => []
      | (.stopped _, _) => [] := by
  induction p generalizing m with
  | done a => rfl
  | fail e => rfl
  | stop s => rfl
  | step e k ih =>
    simp only [step_bind, log, Program.run, List.append_assoc]
    rcases handle e m with ⟨a | e | s, next⟩ <;> dsimp only
    · rw [ih]
    · rw [ih]
    · simp

/-- Attempting a program makes the same entries. -/
theorem log_attempt (p : Program σ α) (m : Machine σ) :
    p.attempt.log handle entry m = p.log handle entry m := by
  induction p generalizing m with
  | done a => rfl
  | fail e => rfl
  | stop s => rfl
  | step e k ih =>
    simp only [attempt_step, log]
    rcases handle e m with ⟨a | e | s, next⟩ <;> dsimp only
    · rw [ih]
    · rw [ih]

end Program

/-- How an attempt ends: a failure is a value to it. -/
def Outcome.attempt {α : Type} : Outcome α → Outcome (Except Failure α)
  | value a => value (.ok a)
  | failure e => value (.error e)
  | stopped s => stopped s

namespace Machine

variable {σ α β : Type}

/-- The entries of an effect: a request, and what is asked for `within` it. -/
def entries (within : Request → Machine σ → List Request) (e : Effect σ) (m : Machine σ) :
    List Request :=
  match e with
  | .method r => r :: within r m
  | _ => []

/-- The requests that are made to answer a request, to every depth. -/
def within (E : Embedder σ) : Nat → Request → Machine σ → List Request
  | 0, _, _ => []
  | fuel + 1, r, m =>
    match nested E fuel m r with
    | some q => q.2.log (handler fuel (respond E fuel)) (entries (within E fuel)) m
    | none => []

/-- The requests that a program makes itself. -/
def requests (E : Embedder σ) (fuel : Nat) (p : Program σ α) (m : Machine σ) : List Request :=
  p.log (handler fuel (respond E fuel)) (entries fun _ _ => []) m

/-- The requests that are made in a run, to every depth. -/
def consulted (E : Embedder σ) (fuel : Nat) (p : Program σ α) (m : Machine σ) : List Request :=
  p.log (handler fuel (respond E fuel)) (entries (within E fuel)) m

/-- A program makes these requests itself, in this order, and ends in this way. -/
structure Performs (E : Embedder σ) (fuel : Nat) (p : Program σ α) (m : Machine σ)
    (l : List Request) (x : Outcome α) (m' : Machine σ) : Prop where
  requests : requests E fuel p m = l
  execute : execute E fuel p m = (x, m')

variable {E : Embedder σ} {fuel : Nat} {p : Program σ α} {f : α → Program σ β}
  {m m₁ m' : Machine σ} {l l' : List Request}

/-! ## What a program asks for -/

theorem performs_pure (a : α) (m : Machine σ) : Performs E fuel (pure a) m [] (.value a) m :=
  ⟨rfl, rfl⟩

theorem performs_raise (c : Cause) (m : Machine σ) :
    Performs E fuel (Program.raise c : Program σ α) m [] (.raise c) m :=
  ⟨rfl, rfl⟩

theorem performs_heap (m : Machine σ) : Performs E fuel Program.heap m [] (.value m.heap) m :=
  ⟨Program.log_effect _ _ _ m, execute_heap E fuel m⟩

theorem performs_method {r : Request} {x : Outcome r.Answer}
    (h : execute E fuel (Program.effect (.method r)) m = (x, m')) :
    Performs E fuel (Program.effect (.method r)) m [r] x m' :=
  ⟨Program.log_effect _ _ _ m, h⟩

theorem requests_bind (p : Program σ α) (f : α → Program σ β) (m : Machine σ) :
    requests E fuel (p >>= f) m = requests E fuel p m ++
      match execute E fuel p m with
      | (.value a, m) => requests E fuel (f a) m
      | (.failure _, _) => []
      | (.stopped _, _) => [] :=
  Program.log_bind _ _ p f m

theorem Performs.bind {a : α} {x : Outcome β} (hp : Performs E fuel p m l (.value a) m₁)
    (hf : Performs E fuel (f a) m₁ l' x m') : Performs E fuel (p >>= f) m (l ++ l') x m' where
  requests := by rw [requests_bind, hp.execute, hp.requests, ← hf.requests]
  execute := (execute_bind hp.execute f).trans hf.execute

/-- A failure is passed on, and no further request is made. -/
theorem Performs.bind_failure {e : Failure} (hp : Performs E fuel p m l (.failure e) m')
    (f : α → Program σ β) : Performs E fuel (p >>= f) m l (.failure e) m' where
  requests := by rw [requests_bind, hp.execute, hp.requests, List.append_nil]
  execute := by rw [execute_bind_eq, Run.bind, hp.execute]

theorem Performs.bind_stopped {s : Stop} (hp : Performs E fuel p m l (.stopped s) m')
    (f : α → Program σ β) : Performs E fuel (p >>= f) m l (.stopped s) m' where
  requests := by rw [requests_bind, hp.execute, hp.requests, List.append_nil]
  execute := by rw [execute_bind_eq, Run.bind, hp.execute]

theorem Performs.attempt {x : Outcome α} (hp : Performs E fuel p m l x m') :
    Performs E fuel p.attempt m l x.attempt m' where
  requests := (Program.log_attempt _ _ p m).trans hp.requests
  execute := by
    have hrun := hp.execute
    rw [Machine.execute] at hrun
    rw [Machine.execute, Program.run_attempt, hrun]
    cases x <;> rfl

/-! ## What is asked to every depth -/

theorem consulted_method (r : Request) :
    consulted E fuel (Program.effect (.method r)) m = r :: within E fuel r m :=
  Program.log_effect _ _ _ m

/-- To answer a request an object of the model runs one program or none. -/
theorem within_object {r : Request} {s : Object}
    (ho : m.heap.objects[r.target.index]? = some (.object s)) (fuel : Nat) :
    within E (fuel + 1) r m =
      (nestedIn E fuel s r).elim [] fun q => consulted E fuel q.2 m := by
  rw [within, nested, Heap.cell, ho]
  dsimp only
  cases nestedIn E fuel s r <;> rfl

theorem consulted_bind {a : α} (hp : execute E fuel p m = (.value a, m')) (f : α → Program σ β) :
    consulted E fuel (p >>= f) m = consulted E fuel p m ++ consulted E fuel (f a) m' := by
  rw [execute] at hp
  rw [consulted, Program.bind_eq, Program.log_bind, hp]
  rfl

end Machine

end Ecma
