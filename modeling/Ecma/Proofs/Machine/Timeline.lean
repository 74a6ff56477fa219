import Mathlib.Data.List.Chain
import Ecma.Proofs.Machine.Nesting

/-!
# The machines of a run, one after the other

`timeline E fuel p m` lists the machines that a run goes through in the order of time: the
one that it starts from, and one more after every effect. To answer a request other programs
may run (`nested`); their machines stand between the request and its end.

From one machine of the list to the next **an object takes one step at most**
(`gradual_timeline`): either an effect that is not a request was carried out, or a request was
answered that runs no program, or what was left of a request when its program was done. So the
list leaves nothing out that could be told apart by looking at an object.
-/

namespace Ecma

/-! ## One change of an object -/

/-- What becomes of an object from one machine to the next. -/
inductive Object.Move (s : Object) : Object → Prop
  | stay : Move s s
  | step {s' : Object} (h : s.Step s') : Move s s'
  | prototype (p : Option ObjectId) : Move s { s with prototype := p }

/-- Every object of one heap stands in the other one, one change further at most. -/
def Heap.Moves (h h' : Heap) : Prop :=
  ∀ (i : Nat) (s : Object), h.objects[i]? = some (.object s) →
    ∃ s', h'.objects[i]? = some (.object s') ∧ s.Move s'

namespace Heap

theorem Moves.of_objects_eq {h h' : Heap} (heq : h'.objects = h.objects) : h.Moves h' :=
  fun _ s hi => ⟨s, heq ▸ hi, .stay⟩

theorem Moves.refl (h : Heap) : h.Moves h := .of_objects_eq rfl

theorem moves_allocate (h : Heap) (c : Cell) : h.Moves (h.allocate c).2 :=
  fun _ s hi => ⟨s, getElem?_allocate_of_some hi c, .stay⟩

theorem moves_modifyObject {h : Heap} {o : ObjectId} {f : Object → Object}
    (hf : ∀ s, h.objects[o.index]? = some (.object s) → s.Move (f s)) :
    h.Moves (h.modifyObject o f) := by
  intro i s hi
  refine ⟨_, exists_modifyObject hi o f, ?_⟩
  split
  · next heq => exact hf s (heq ▸ hi)
  · exact .stay

end Heap

namespace Machine

variable {σ α β : Type}

/-! ## Effects other than requests -/

theorem moves_tryHeap {f : Heap → Outcome (α × Heap)} {m : Machine σ}
    (hf : ∀ a h, f m.heap = .value (a, h) → m.heap.Moves h) :
    m.heap.Moves (Run.tryHeap f m).2.heap := by
  simp only [Run.tryHeap]
  rcases hres : f m.heap with ⟨a, h⟩ | e | s
  · exact hf a h hres
  · exact .refl _
  · exact .refl _

/-- An effect that ends with a heap only. -/
theorem moves_tryHeap_unit {f : Heap → Outcome Heap} {m : Machine σ}
    (hf : ∀ h, f m.heap = .value h → m.heap.ScopesOnly h) :
    m.heap.Moves (Run.tryHeap (fun h => do return ((), ← f h)) m).2.heap := by
  refine moves_tryHeap fun a h hres => ?_
  obtain ⟨h', hf', hres⟩ := Outcome.bind_eq_value hres
  obtain ⟨-, rfl⟩ := Prod.mk.inj (Outcome.value.inj hres)
  exact .of_objects_eq (hf h' hf').objects

/-- An effect that is not a request changes no object. -/
theorem moves_handler (fuel : Nat) (answer : (r : Request) → Run σ r.Answer) {e : Effect σ}
    (he : ∀ r, e ≠ .method r) (m : Machine σ) :
    m.heap.Moves (handler fuel answer e m).2.heap := by
  cases e with
  | method r => exact absurd rfl (he r)
  | allocate b =>
    refine moves_tryHeap fun o h hres => ?_
    obtain ⟨c, -, hres⟩ := Outcome.bind_eq_value hres
    split at hres
    · obtain ⟨-, rfl⟩ := Prod.mk.inj (Outcome.value.inj hres)
      exact m.heap.moves_allocate c
    · cases hres
  | bindings e c =>
    exact moves_tryHeap fun a h hres => .of_objects_eq (Heap.scopes_bindings hres).objects
  | bindThis e v => exact moves_tryHeap_unit fun h hres => Heap.scopes_bindThis hres
  | declareVar e name =>
    exact moves_tryHeap_unit fun h hres => Heap.scopes_modifyGlobal (.declareVar · name) hres
  | forgetVar e name =>
    exact moves_tryHeap_unit fun h hres => Heap.scopes_modifyGlobal (.forgetVar · name) hres
  | addModule g specifier =>
    exact moves_tryHeap fun a h hres => .of_objects_eq (Heap.scopes_addModule hres).objects
  | setStatus g i status => exact moves_tryHeap_unit fun h hres => Heap.scopes_setStatus hres
  | instantiate g i outer =>
    exact moves_tryHeap fun a h hres => .of_objects_eq (Heap.scopes_instantiate hres).objects
  | _ => exact .of_objects_eq rfl

/-! ## Requests -/

/-- The program that an object of the model runs to answer a request, if it runs one. -/
def nestedIn (E : Embedder σ) (fuel : Nat) (s : Object) : Request → Option (Σ β, Program σ β)
  | .setPrototypeOf o p =>
    if p ≠ s.prototype ∧ s.extensible then some ⟨_, Program.chainAvoids o fuel p⟩ else none
  | .defineOwnProperty _ k d =>
    if s.kind = .array ∧ k = Object.lengthKey then d.value.map fun v => ⟨_, requestedLength v⟩
    else none
  | .hasProperty o k => some ⟨_, Program.ordinaryHas o k⟩
  | .get o k receiver => some ⟨_, Program.ordinaryGet o k receiver⟩
  | .set o k v receiver => some ⟨_, Program.ordinarySet o k v receiver⟩
  | .call _ this args =>
    match s.kind with
    | .function _ code _ => some ⟨_, E.call code this args⟩
    | _ => none
  | .construct _ args newTarget =>
    match s.kind with
    | .function _ _ (some code) => some ⟨_, E.construct code args newTarget⟩
    | _ => none
  | _ => none

/-- The program that is run to answer a request, if one is. -/
def nested (E : Embedder σ) (fuel : Nat) (m : Machine σ) (r : Request) :
    Option (Σ β, Program σ β) :=
  match m.heap.cell r.target with
  | .value (.object s) => nestedIn E fuel s r
  | .value (.exotic x) => some ⟨_, E.exotic x.host r⟩
  | .failure _ => none
  | .stopped _ => none

theorem runs_of_nestedIn {E : Embedder σ} {fuel : Nat} {m : Machine σ} {r : Request} {s : Object}
    (hcell : m.heap.cell r.target = .value (.object s)) {q : Σ β, Program σ β}
    (h : nestedIn E fuel s r = some q) : Runs E fuel m r q.1 q.2 := by
  cases r with
  | setPrototypeOf o p =>
    simp only [nestedIn, Option.ite_none_right_eq_some] at h
    obtain ⟨⟨hp, hext⟩, hq⟩ := h
    obtain rfl := Option.some.inj hq
    exact .setPrototypeOf hcell hp hext
  | defineOwnProperty o k d =>
    simp only [nestedIn, Option.ite_none_right_eq_some, Option.map_eq_some_iff] at h
    obtain ⟨⟨hkind, rfl⟩, v, hv, rfl⟩ := h
    exact .defineLength hcell hkind hv
  | hasProperty o k =>
    obtain rfl := Option.some.inj h
    exact .hasProperty hcell k
  | get o k receiver =>
    obtain rfl := Option.some.inj h
    exact .get hcell k receiver
  | set o k v receiver =>
    obtain rfl := Option.some.inj h
    exact .set hcell k v receiver
  | call o this args =>
    simp only [nestedIn] at h
    split at h
    · next hkind =>
      obtain rfl := Option.some.inj h
      exact .call hcell hkind this args
    · cases h
  | construct o args newTarget =>
    simp only [nestedIn] at h
    split at h
    · next hkind =>
      obtain rfl := Option.some.inj h
      exact .construct hcell hkind args newTarget
    · cases h
  | _ => cases h

theorem runs_of_nested {E : Embedder σ} {fuel : Nat} {m : Machine σ} {r : Request}
    {q : Σ β, Program σ β} (h : nested E fuel m r = some q) : Runs E fuel m r q.1 q.2 := by
  rw [nested] at h
  split at h
  · next hcell => exact runs_of_nestedIn hcell h
  · next hcell =>
    obtain rfl := Option.some.inj h
    exact .exotic hcell
  · cases h
  · cases h

/-- A method that is one change of the object. -/
theorem moves_onObject {o : ObjectId} {f : Object → α × Object} {m : Machine σ}
    (hf : ∀ s, m.heap.objects[o.index]? = some (.object s) → s.Move (f s).2) :
    m.heap.Moves (Run.onObject o f m).2.heap := by
  refine moves_tryHeap fun a h hres => ?_
  simp only [Heap.cell] at hres
  rcases hcell : m.heap.objects[o.index]? with _ | ⟨s⟩ | x <;> rw [hcell] at hres
  · cases hres
  · obtain ⟨-, rfl⟩ := Prod.mk.inj (Outcome.value.inj hres)
    exact Heap.moves_modifyObject hf
  · cases hres

/-- A request that an object answers by itself is one change of it at most. -/
theorem moves_respondObject {E : Embedder σ} {handle : Handler σ} {fuel : Nat} {s : Object}
    {r : Request} {m : Machine σ} (ho : m.heap.objects[r.target.index]? = some (.object s))
    (h : nestedIn E fuel s r = none) :
    m.heap.Moves (respondObject E handle fuel s r m).2.heap := by
  have hkind : ∀ {s' : Object}, m.heap.objects[r.target.index]? = some (.object s') →
      s'.kind = s.kind := fun hs' => Heap.object_inj hs' ho ▸ rfl
  cases r with
  | setPrototypeOf o p =>
    simp only [nestedIn, ite_eq_right_iff, reduceCtorEq, imp_false, not_and] at h
    simp only [respondObject, changePrototype]
    split
    · exact .refl _
    · next hp =>
      rw [if_pos (by simpa using h hp)]
      exact .refl _
  | preventExtensions o => exact moves_onObject fun s' _ => .step (.preventExtensions s')
  | defineOwnProperty o k d =>
    have hdefine : s.kind ≠ .array →
        m.heap.Moves (Run.onObject o (fun s => s.define k d) m).2.heap := by
      intro hne
      refine moves_onObject fun s' hs' => .step (.define (fun ha => hne ?_) k d)
      exact (hkind hs').symm.trans ha
    simp only [respondObject]
    rcases harray : s.kind with _ | _ | _
    · exact hdefine (by simp [harray])
    · simp only [defineInArray]
      split
      · next hk =>
        subst hk
        have hd : d.value = none := by simpa [nestedIn, harray] using h
        rw [hd]
        exact moves_onObject fun s' hs' => .step (.defineLength ((hkind hs').trans harray) hd)
      · next hk =>
        exact moves_onObject fun s' hs' => .step (.defineInArray ((hkind hs').trans harray) hk d)
    · exact hdefine (by simp [harray])
  | delete o k => exact moves_onObject fun s' _ => .step (.delete s' k)
  | call o this args =>
    simp only [nestedIn] at h
    simp only [respondObject]
    rcases hfun : s.kind with _ | _ | _ <;> rw [hfun] at h
    · exact .refl _
    · exact .refl _
    · cases h
  | construct o args newTarget =>
    simp only [nestedIn] at h
    simp only [respondObject]
    rcases hfun : s.kind with _ | _ | ⟨name, code, _ | construct⟩ <;> rw [hfun] at h
    · exact .refl _
    · exact .refl _
    · exact .refl _
    · cases h
  | hasProperty o k => cases h
  | get o k receiver => cases h
  | set o k v receiver => cases h
  | _ => exact .refl _

/-- A request that runs no program is one change of an object at most. -/
theorem moves_respond {E : Embedder σ} {fuel : Nat} {m : Machine σ} {r : Request}
    (h : nested E fuel m r = none) : m.heap.Moves (respond E (fuel + 1) r m).2.heap := by
  simp only [nested] at h
  simp only [respond]
  rcases hcell : m.heap.cell r.target with ⟨s | x⟩ | f | stop <;> rw [hcell] at h
  · exact moves_respondObject (getElem?_of_cell hcell) h
  · cases h
  · exact .refl _
  · exact .refl _

/-- Going on after a program is one change if what follows is. -/
theorem moves_bind {handle : Handler σ} (p : Program σ α) {f : α → Run σ β} {m : Machine σ}
    (hf : ∀ a m', p.run handle m = (.value a, m') → m'.heap.Moves (f a m').2.heap) :
    (p.run handle m).2.heap.Moves ((p.run handle >>= f) m).2.heap := by
  change Heap.Moves _ (Run.bind (p.run handle) f m).2.heap
  simp only [Run.bind]
  rcases hres : p.run handle m with ⟨a | e | s, next⟩
  · exact hf a next hres
  · exact .refl _
  · exact .refl _

/-- What is left of a request when its program is done is one change of an object at
most. -/
theorem Runs.moves {E : Embedder σ} {fuel : Nat} {m : Machine σ} {r : Request} {q : Program σ β}
    (h : Runs E fuel m r β q) :
    (execute E fuel q m).2.heap.Moves (respond E (fuel + 1) r m).2.heap := by
  cases h with
  | setPrototypeOf h hp hs =>
    simp only [respond, Request.target, h, respondObject, changePrototype, if_neg hp, hs]
    refine moves_bind _ fun free next hrun => ?_
    split
    · exact moves_onObject fun s' _ => .prototype _
    · exact .refl _
  | defineLength h hs hd =>
    simp only [respond, Request.target, h, respondObject, hs, defineInArray, hd]
    refine moves_bind _ fun n next hrun => moves_onObject fun s' hs' => ?_
    obtain ⟨s'', hs'', hkind⟩ := (changes_of_run hrun).kind (getElem?_of_cell h)
    obtain rfl := Heap.object_inj hs'' hs'
    exact .step (.setLength (hkind.trans hs) ((returns_requestedLength _).run hrun) _)
  | exotic h =>
    simp only [respond, h]
    exact .refl _
  | hasProperty h k =>
    simp only [respond, Request.target, h]
    exact .refl _
  | get h k receiver =>
    simp only [respond, Request.target, h]
    exact .refl _
  | set h k v receiver =>
    simp only [respond, Request.target, h]
    exact .refl _
  | call h hs this args =>
    simp only [respond, Request.target, h, respondObject, hs]
    exact .refl _
  | construct h hs args newTarget =>
    simp only [respond, Request.target, h, respondObject, hs]
    exact .refl _

end Machine

/-! ## Timelines -/

/-- The machines after `m` when the effects of a program are carried out; `inside` are those
between an effect and its end. -/
def Program.trace {σ α : Type} (handle : Handler σ)
    (inside : Effect σ → Machine σ → List (Machine σ)) :
    Program σ α → Machine σ → List (Machine σ)
  | .done _, _ => []
  | .fail _, _ => []
  | .stop _, _ => []
  | .step e k, m =>
    inside e m ++
      match handle e m with
      | (.value a, m) => m :: (k (.ok a)).trace handle inside m
      | (.failure f, m) => m :: (k (.error f)).trace handle inside m
      | (.stopped _, m) => [m]

namespace Machine

variable {σ α : Type}

/-- The machines between an effect and its end: those while a request is pending. -/
def inside (pending : Request → Machine σ → List (Machine σ)) :
    Effect σ → Machine σ → List (Machine σ)
  | .method r => pending r
  | _ => fun _ => []

/-- The machines while a request is pending, those of the program that is run for it. -/
def pending (E : Embedder σ) : Nat → Request → Machine σ → List (Machine σ)
  | 0, _, _ => []
  | fuel + 1, r, m =>
    match nested E fuel m r with
    | some q => q.2.trace (handler fuel (respond E fuel)) (inside (pending E fuel)) m
    | none => []

/-- The machines of a run in the order of time. -/
def timeline (E : Embedder σ) (fuel : Nat) (p : Program σ α) (m : Machine σ) :
    List (Machine σ) :=
  m :: p.trace (handler fuel (respond E fuel)) (inside (pending E fuel)) m

/-- The last machine of a timeline is the one that the run ends with. -/
theorem getLast?_timeline (E : Embedder σ) (fuel : Nat) (p : Program σ α) (m : Machine σ) :
    (timeline E fuel p m).getLast? = some (execute E fuel p m).2 := by
  have hskip : ∀ (m m' : Machine σ) (l l' : List (Machine σ)),
      (m :: (l ++ m' :: l')).getLast? = (m' :: l').getLast? := by
    intro m m' l l'
    rw [← List.cons_append, List.getLast?_append_of_ne_nil _ (List.cons_ne_nil m' l')]
  induction p generalizing m with
  | done a => rfl
  | fail f => rfl
  | stop s => rfl
  | step e k ih =>
    rw [timeline, Program.trace, execute, Program.run]
    rcases handler fuel (respond E fuel) e m with ⟨a | f | s, next⟩ <;> dsimp only <;> rw [hskip]
    · exact ih (.ok a) next
    · exact ih (.error f) next
    · rfl

/-- From one machine of the list to the next an object takes one step at most. -/
def Gradual (l : List (Machine σ)) : Prop := l.IsChain fun m m' => m.heap.Moves m'.heap

/-- A program is carried out step by step if its effects are. -/
theorem gradual_trace {handle : Handler σ} {inside : Effect σ → Machine σ → List (Machine σ)}
    (h : ∀ e m, Gradual ((m :: inside e m) ++ [(handle e m).2])) (p : Program σ α)
    (m : Machine σ) : Gradual (m :: p.trace handle inside m) := by
  induction p generalizing m with
  | done a => exact .singleton m
  | fail f => exact .singleton m
  | stop s => exact .singleton m
  | step e k ih =>
    have hstep := h e m
    rw [Program.trace]
    rcases hres : handle e m with ⟨a | f | s, next⟩ <;> rw [hres] at hstep
    · simpa [Gradual] using hstep.append_overlap (ih (.ok a) next) (List.cons_ne_nil _ _)
    · simpa [Gradual] using hstep.append_overlap (ih (.error f) next) (List.cons_ne_nil _ _)
    · exact hstep

/-- An effect is carried out step by step if requests are. -/
theorem gradual_effect {E : Embedder σ} {fuel : Nat}
    (h : ∀ r m, Gradual ((m :: pending E fuel r m) ++ [(respond E fuel r m).2])) (e : Effect σ)
    (m : Machine σ) :
    Gradual ((m :: inside (pending E fuel) e m) ++ [(handler fuel (respond E fuel) e m).2]) := by
  by_cases he : ∃ r, e = .method r
  · obtain ⟨r, rfl⟩ := he
    exact h r m
  · have hmoves := moves_handler fuel (respond E fuel) (fun r hr => he ⟨r, hr⟩) m
    have hnone : inside (pending E fuel) e m = [] := by
      cases e with
      | method r => exact absurd ⟨r, rfl⟩ he
      | _ => rfl
    rw [hnone]
    exact List.isChain_pair.mpr hmoves

/-- Requests are answered step by step to every depth. -/
theorem gradual_pending (E : Embedder σ) (fuel : Nat) (r : Request) (m : Machine σ) :
    Gradual ((m :: pending E fuel r m) ++ [(respond E fuel r m).2]) := by
  induction fuel generalizing r m with
  | zero => exact List.isChain_pair.mpr (.refl _)
  | succ fuel ih =>
    rw [pending]
    rcases hnested : nested E fuel m r with _ | q
    · exact List.isChain_pair.mpr (moves_respond hnested)
    · -- the timeline of the program, and then what is left of the request
      have hq : Gradual (timeline E fuel q.2 m) := gradual_trace (gradual_effect ih) q.2 m
      refine hq.append (.singleton _) fun x hx y hy => ?_
      obtain rfl := Option.some.inj ((getLast?_timeline E fuel q.2 m).symm.trans hx)
      obtain rfl := Option.some.inj hy
      exact (runs_of_nested hnested).moves

/-- **Timelines.** From one machine of a timeline to the next an object takes one step at
most. -/
theorem gradual_timeline (E : Embedder σ) (fuel : Nat) (p : Program σ α) (m : Machine σ) :
    Gradual (timeline E fuel p m) :=
  gradual_trace (gradual_effect (gradual_pending E fuel)) p m

end Machine

end Ecma
