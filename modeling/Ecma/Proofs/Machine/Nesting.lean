import Ecma.Proofs.Machine.Changes

/-!
# Machines in the midst of a run

While an object answers a request, other programs may run: the code of a function or
of an exotic object, a request passed on along the prototype chain, the conversion of a
value that is to be a length. Such a program finds a machine in which requests are
**pending**. `Passes` collects the machines that a run goes through, those that nested
programs find and leave included.

What has been done up to such a machine are changes of whole requests
(`Passes.changes`). What is done from there to the end of the run (`Passes.rest`) are
changes too, but they include the ends of requests that were pending. This makes a
difference for prototypes alone: an object that is asked for another one checks first
that it is extensible, and sets it after the chain was walked.
-/

namespace Ecma.Machine

variable {σ : Type}

theorem getElem?_of_cell {h : Heap} {o : ObjectId} {c : Cell} (hc : h.cell o = .value c) :
    h.objects[o.index]? = some c := by
  simp only [Heap.cell] at hc
  split at hc
  · next hcell => rw [hcell, Outcome.value.inj hc]
  · cases hc

/-- An object of the model stands at a place, and it passes a check. -/
def holdsObject (h : Heap) (o : ObjectId) (check : Object → Bool) : Bool :=
  h.objects[o.index]?.any fun
    | .object s => check s
    | .exotic _ => false

theorem exists_of_holdsObject {h : Heap} {o : ObjectId} {check : Object → Bool}
    (hcheck : holdsObject h o check = true) :
    ∃ s, h.cell o = .value (.object s) ∧ check s = true := by
  obtain ⟨c, hc, hholds⟩ := (Option.any_eq_true _ _).mp hcheck
  cases c with
  | object s => exact ⟨s, by rw [Heap.cell, hc], hholds⟩
  | exotic x => cases hholds

/-- To answer a request the machine runs a program, with `fuel` steps left. -/
inductive Runs (E : Embedder σ) (fuel : Nat) (m : Machine σ) :
    Request → (β : Type) → Program σ β → Prop
  | exotic {r : Request} {x : Exotic} (h : m.heap.cell r.target = .value (.exotic x)) :
      Runs E fuel m r r.Answer (E.exotic x.host r)
  | hasProperty {o : ObjectId} {s : Object} (h : m.heap.cell o = .value (.object s))
      (k : PropertyKey) : Runs E fuel m (.hasProperty o k) Bool (Program.ordinaryHas o k)
  | get {o : ObjectId} {s : Object} (h : m.heap.cell o = .value (.object s)) (k : PropertyKey)
      (receiver : Value) :
      Runs E fuel m (.get o k receiver) Value (Program.ordinaryGet o k receiver)
  | set {o : ObjectId} {s : Object} (h : m.heap.cell o = .value (.object s)) (k : PropertyKey)
      (v receiver : Value) :
      Runs E fuel m (.set o k v receiver) Bool (Program.ordinarySet o k v receiver)
  | call {o : ObjectId} {s : Object} (h : m.heap.cell o = .value (.object s)) {name : String}
      {code : CodeId} {new : Option CodeId} (hs : s.kind = .function name code new) (this : Value)
      (args : List Value) : Runs E fuel m (.call o this args) Value (E.call code this args)
  | construct {o : ObjectId} {s : Object} (h : m.heap.cell o = .value (.object s)) {name : String}
      {code new : CodeId} (hs : s.kind = .function name code (some new)) (args : List Value)
      (newTarget : ObjectId) :
      Runs E fuel m (.construct o args newTarget) ObjectId (E.construct new args newTarget)
  | setPrototypeOf {o : ObjectId} {s : Object} (h : m.heap.cell o = .value (.object s))
      {p : Option ObjectId} (hp : p ≠ s.prototype) (hs : s.extensible = true) :
      Runs E fuel m (.setPrototypeOf o p) Bool (Program.chainAvoids o fuel p)
  | defineLength {o : ObjectId} {s : Object} (h : m.heap.cell o = .value (.object s))
      (hs : s.kind = .array) {d : Descriptor} {v : Value} (hd : d.value = some v) :
      Runs E fuel m (.defineOwnProperty o Object.lengthKey d) Nat (requestedLength v)

/-- A run passes through a machine, perhaps while requests are pending. -/
inductive Passes (E : Embedder σ) :
    Nat → (α : Type) → Program σ α → Machine σ → Machine σ → Prop
  | here {fuel : Nat} {α : Type} (p : Program σ α) (m : Machine σ) : Passes E fuel α p m m
  | value {fuel : Nat} {α : Type} {e : Effect σ} {k : Except Failure e.Answer → Program σ α}
      {m m' m'' : Machine σ} {a : e.Answer}
      (h : handler fuel (respond E fuel) e m = (.value a, m'))
      (hp : Passes E fuel α (k (.ok a)) m' m'') : Passes E fuel α (.step e k) m m''
  | failure {fuel : Nat} {α : Type} {e : Effect σ} {k : Except Failure e.Answer → Program σ α}
      {m m' m'' : Machine σ} {f : Failure}
      (h : handler fuel (respond E fuel) e m = (.failure f, m'))
      (hp : Passes E fuel α (k (.error f)) m' m'') : Passes E fuel α (.step e k) m m''
  | stopped {fuel : Nat} {α : Type} {e : Effect σ} {k : Except Failure e.Answer → Program σ α}
      {m m' : Machine σ} {s : Stop}
      (h : handler fuel (respond E fuel) e m = (.stopped s, m')) : Passes E fuel α (.step e k) m m'
  | within {fuel : Nat} {α : Type} {r : Request}
      {k : Except Failure (Effect.method r : Effect σ).Answer → Program σ α} {m m' : Machine σ}
      {β : Type} {q : Program σ β} (hr : Runs E fuel m r β q) (hq : Passes E fuel β q m m') :
      Passes E (fuel + 1) α (.step (.method r) k) m m'

/-- A run passes through the machine that it ends with. -/
theorem passes_end (E : Embedder σ) (fuel : Nat) {α : Type} (p : Program σ α) (m : Machine σ) :
    Passes E fuel α p m (execute E fuel p m).2 := by
  induction p generalizing m with
  | done a => exact .here _ m
  | fail f => exact .here _ m
  | stop s => exact .here _ m
  | step e k ih =>
    simp only [execute, Program.run]
    rcases hres : handler fuel (respond E fuel) e m with ⟨a | f | s, next⟩
    · exact .value hres (ih (.ok a) next)
    · exact .failure hres (ih (.error f) next)
    · exact .stopped hres

/-- An effect makes changes of whole requests. -/
theorem changes_of_handler {E : Embedder σ} {fuel : Nat} {e : Effect σ} {m m' : Machine σ}
    {x : Outcome e.Answer} (h : handler fuel (respond E fuel) e m = (x, m')) :
    Heap.Changes true m.heap m'.heap := by
  have heffect := (lawful E fuel).changes e m
  rwa [h] at heffect

/-- A program makes changes of whole requests. -/
theorem changes_of_run {E : Embedder σ} {fuel : Nat} {α : Type} {p : Program σ α}
    {m m' : Machine σ} {x : Outcome α} (h : p.run (handler fuel (respond E fuel)) m = (x, m')) :
    Heap.Changes true m.heap m'.heap := by
  have hrun := changes_execute E fuel p m
  rwa [execute, h] at hrun

/-- Up to a machine in the midst of a run only whole requests have made changes. -/
theorem Passes.changes {E : Embedder σ} {fuel : Nat} {α : Type} {p : Program σ α}
    {m m' : Machine σ} (h : Passes E fuel α p m m') : Heap.Changes true m.heap m'.heap := by
  induction h with
  | here p m => exact .refl _
  | value h _ ih => exact (changes_of_handler h).trans ih
  | failure h _ ih => exact (changes_of_handler h).trans ih
  | stopped h => exact changes_of_handler h
  | within _ _ ih => exact ih

/-- What is left to do when a program is done. -/
theorem rest_bind {α β : Type} {handle : Handler σ} (p : Program σ α) {f : α → Run σ β}
    {m : Machine σ} (hf : ∀ a m', p.run handle m = (.value a, m') →
      Heap.Changes false m'.heap (f a m').2.heap) :
    Heap.Changes false (p.run handle m).2.heap ((p.run handle >>= f) m).2.heap := by
  change Heap.Changes false _ (Run.bind (p.run handle) f m).2.heap
  simp only [Run.bind]
  rcases hres : p.run handle m with ⟨a | e | s, next⟩
  · exact hf a next hres
  · exact .refl _
  · exact .refl _

/-- What is left to do for a request after the program that it runs. -/
theorem Runs.rest {E : Embedder σ} {fuel : Nat} {m : Machine σ} {r : Request} {β : Type}
    {q : Program σ β} (h : Runs E fuel m r β q) :
    Heap.Changes false (execute E fuel q m).2.heap (respond E (fuel + 1) r m).2.heap := by
  cases h with
  | exotic h =>
    simp only [respond, h]
    exact .refl _
  | hasProperty h k =>
    simp only [respond, Request.target, h]
    exact .refl _
  | get h k receiver =>
    simp only [respond, Request.target, h]
    exact .refl _
  | set h k v receiver =>
    simp only [respond, Request.target, h]
    exact .refl _
  | call h hs this args =>
    simp only [respond, Request.target, h, respondObject, hs]
    exact .refl _
  | construct h hs args newTarget =>
    simp only [respond, Request.target, h, respondObject, hs]
    exact .refl _
  | setPrototypeOf h hp hs =>
    simp only [respond, Request.target, h, respondObject, changePrototype, if_neg hp, hs]
    refine rest_bind _ fun free next hrun => ?_
    have hwalk := changes_of_run hrun
    split
    · next hfree =>
      -- the chain was walked; now the prototype is set, whatever the object has become
      obtain rfl : free = true := hfree
      obtain ⟨s', hs', -⟩ := hwalk.kind (getElem?_of_cell h)
      simp only [Run.onObject, Run.tryHeap, Heap.cell, hs', Outcome.value_bind, Outcome.pure_eq]
      refine .prototype hs' (fun hw => absurd hw Bool.false_ne_true) (.refl _) _ fun hplain => ?_
      obtain ⟨rfl, hchain⟩ := (lawful E fuel).walk (hwalk.plain hplain) hrun
      exact hchain
    · exact .refl _
  | defineLength h hs hd =>
    simp only [respond, Request.target, h, respondObject, hs, defineInArray, hd]
    refine rest_bind _ fun n next hrun => (changes_onObject fun s' hs' => ?_).part
    obtain ⟨s'', hs'', hkind⟩ := (changes_of_run hrun).kind (getElem?_of_cell h)
    obtain rfl := Heap.object_inj hs'' hs'
    exact .setLength (hkind.trans hs) ((returns_requestedLength _).run hrun) _

/-- From a machine in the midst of a run the rest of the run makes changes, among them
those of pending requests. -/
theorem Passes.rest {E : Embedder σ} {fuel : Nat} {α : Type} {p : Program σ α}
    {m m' : Machine σ} (h : Passes E fuel α p m m') :
    Heap.Changes false m'.heap (execute E fuel p m).2.heap := by
  induction h with
  | here p m => exact (changes_execute E _ p m).part
  | value h _ ih =>
    rw [execute, Program.run, h]
    exact ih
  | failure h _ ih =>
    rw [execute, Program.run, h]
    exact ih
  | stopped h =>
    rw [execute, Program.run, h]
    exact .refl _
  | @within fuel _ r k m _ _ _ hr _ ih =>
    -- to the end of the nested program, to the end of its request, to the end of the run
    refine (ih.trans hr.rest).trans ?_
    have hmethod : handler (fuel + 1) (respond E (fuel + 1)) (.method r) m =
        respond E (fuel + 1) r m := rfl
    rw [execute, Program.run, hmethod]
    rcases respond E (fuel + 1) r m with ⟨a | f | s, next⟩
    · exact (changes_execute E (fuel + 1) (k (.ok a)) next).part
    · exact (changes_execute E (fuel + 1) (k (.error f)) next).part
    · exact .refl _

end Ecma.Machine
