import Ecma.Proofs.Machine.ObjectState
import Ecma.Proofs.Machine.Promises
import Ecma.Proofs.Object.Integrity

/-!
# Sealing and freezing

To seal or freeze an object is to ask it for every property of it, one key after the other.
Each request is granted and none of them runs other code, so the object comes out closed and
otherwise as it was (`execute_setIntegrityLevel`). In an array this takes that its elements are
below its length: an element beyond it would be refused once the length is read-only, and
would move the length before.

What is closed stays closed, since objects keep their promises over every run
(`integrity_levels_hold`).
-/

namespace Ecma

namespace Machine

variable {σ : Type} {m : Machine σ} {o : ObjectId} {s s' : Object}

/-! ## Requests to one object -/

section

variable (E : Embedder σ) (ho : m.heap.objects[o.index]? = some (.object s)) (fuel : Nat)
  {level : IntegrityLevel} {k : PropertyKey} {p : Property}
include ho

theorem execute_preventExtensions :
    execute E (fuel + 1) (Program.preventExtensions o) m =
      (.value true, m.setObject o s.preventExtensions) :=
  ((execute_method E _ _ m).trans (respond_object E ho fuel)).trans (onObject_eq ho _)

/-- A request about a property that is there, other than for a value, is up to the rule alone:
in an array too. -/
theorem execute_defineOwnProperty (hs : s.Sound) (hp : s.own? k = some p) {d : Descriptor}
    (hd : d.value = none) :
    execute E (fuel + 1) (Program.defineOwnProperty o k d) m =
      (.value (s.define k d).1, m.setObject o (s.define k d).2) := by
  by_cases ha : s.kind = .array
  · by_cases hk : k = Object.lengthKey
    · refine ((execute_method E _ _ m).trans (respond_object E ho fuel)).trans ?_
      simp only [respondObject, ha, defineInArray, if_pos hk, hd]
      exact onObject_eq ho _
    · rw [execute_defineInArray E ho fuel ha hk, Object.defineInArray_of_own? hs ha hp]
  · exact execute_define E ho fuel ha k d

theorem execute_definePropertyOrThrow (hs : s.Sound) (hp : s.own? k = some p) {d : Descriptor}
    (hd : d.value = none) (hgranted : s.define k d = (true, s')) :
    execute E (fuel + 1) (Program.definePropertyOrThrow o k d) m =
      (.value (), m.setObject o s') := by
  have hdefine := execute_defineOwnProperty E ho fuel hs hp hd
  rw [hgranted] at hdefine
  exact execute_bind hdefine _

theorem execute_closeProperty (hs : s.Sound) (hp : s.own? k = some p) (level : IntegrityLevel) :
    ∃ s', execute E (fuel + 1) (Program.closeProperty o level k) m = (.value (), m.setObject o s') ∧
      Object.Closes level [k] s s' := by
  obtain ⟨s', hgranted, hcloses⟩ := Object.define_request_closes hp level
  refine ⟨s', ?_, hcloses⟩
  cases level with
  | sealed => exact execute_definePropertyOrThrow E ho fuel hs hp rfl hgranted
  | frozen =>
    have hvalue : (IntegrityLevel.frozen.request p).value = none := by
      rw [IntegrityLevel.request]
      split <;> rfl
    refine (execute_bind (execute_getOwnProperty E ho fuel k) _).trans ?_
    rw [hp]
    exact execute_definePropertyOrThrow E ho fuel hs hp hvalue hgranted

end

/-- Closing properties one after the other closes all of them. -/
theorem execute_closeProperties (E : Embedder σ) (fuel : Nat) (level : IntegrityLevel)
    (ks : List PropertyKey) (ho : m.heap.objects[o.index]? = some (.object s))
    (hs : m.heap.Sound) (hks : ∀ k ∈ ks, (s.own? k).isSome) :
    ∃ s', execute E (fuel + 1) (Program.closeProperties o level ks) m =
        (.value (), m.setObject o s') ∧ Object.Closes level ks s s' := by
  induction ks generalizing m s with
  | nil => exact ⟨s, by rw [setObject_self ho]; rfl, .nil level s⟩
  | cons k ks ih =>
    obtain ⟨p, hp⟩ := Option.isSome_iff_exists.mp (hks k List.mem_cons_self)
    obtain ⟨s₁, hfirst, hcloses⟩ := execute_closeProperty E ho fuel (hs _ s ho) hp level
    -- the array is still sound after the first request, and has the same keys
    have hsound : (m.setObject o s₁).heap.Sound := by
      have hchanges := changes_execute E (fuel + 1) (Program.closeProperty o level k) m
      rw [hfirst] at hchanges
      exact hchanges.sound hs
    have hks' : ∀ j ∈ ks, (s₁.own? j).isSome := by
      intro j hj
      have hthere := hks j (List.mem_cons_of_mem k hj)
      rw [hcloses.own?]
      split
      · rwa [Option.isSome_map]
      · exact hthere
    obtain ⟨s₂, hrest, hcloses'⟩ := ih (getElem?_setObject ho s₁) hsound hks'
    refine ⟨s₂, ?_, hcloses.cons hcloses'⟩
    rw [setObject_setObject] at hrest
    exact (execute_bind hfirst _).trans hrest

/-- **Closing.** An object can always be sealed and frozen. -/
theorem execute_setIntegrityLevel (E : Embedder σ) (fuel : Nat) (level : IntegrityLevel)
    (ho : m.heap.objects[o.index]? = some (.object s)) (hs : m.heap.Sound) :
    ∃ s', execute E (fuel + 1) (Program.setIntegrityLevel o level) m =
        (.value true, m.setObject o s') ∧ s'.isClosed level ∧
      Object.Closes level s.preventExtensions.keys s.preventExtensions s' := by
  have hprevent := execute_preventExtensions E ho fuel
  have ho₁ := getElem?_setObject ho s.preventExtensions
  have hsound : (m.setObject o s.preventExtensions).heap.Sound := by
    have hchanges := changes_execute E (fuel + 1) (Program.preventExtensions o) m
    rw [hprevent] at hchanges
    exact hchanges.sound hs
  obtain ⟨s', hclose, hcloses⟩ := execute_closeProperties E fuel level s.preventExtensions.keys
    ho₁ hsound fun k hk => PropertyTable.mem_keys.mp hk
  refine ⟨s', ?_, hcloses.isClosed rfl, hcloses⟩
  rw [setObject_setObject] at hclose
  refine (execute_bind hprevent _).trans ?_
  refine (execute_bind (execute_ownKeys E ho₁ fuel) _).trans ?_
  exact execute_bind hclose _

theorem execute_allClosed (E : Embedder σ) (fuel : Nat) (level : IntegrityLevel)
    (ho : m.heap.objects[o.index]? = some (.object s)) (ks : List PropertyKey) :
    execute E (fuel + 1) (Program.allClosed o level ks) m =
      (.value (ks.all fun k => (s.own? k).all fun p => IntegrityLevel.holds p level), m) := by
  induction ks with
  | nil => rfl
  | cons k ks ih =>
    refine (execute_bind (execute_getOwnProperty E ho fuel k) _).trans ?_
    rw [List.all_cons]
    rcases s.own? k with _ | p
    · exact ih
    · dsimp only [Option.all_some]
      rcases IntegrityLevel.holds p level with _ | _
      · rfl
      · exact ih

/-- Testing tells whether the object is closed. -/
theorem execute_testIntegrityLevel (E : Embedder σ) (fuel : Nat) (level : IntegrityLevel)
    (ho : m.heap.objects[o.index]? = some (.object s)) :
    execute E (fuel + 1) (Program.testIntegrityLevel o level) m =
      (.value (s.isClosed level), m) := by
  refine (execute_bind (execute_isExtensible E ho fuel) _).trans ?_
  rw [Object.isClosed]
  rcases s.extensible with _ | _
  · refine (execute_bind (execute_ownKeys E ho fuel) _).trans ?_
    exact execute_allClosed E fuel level ho s.keys
  · rfl

/-! ## Whole runs -/

/-- An object that was closed in the state `s` is in the state `s'` in some machine: it has the
same keys and, if it was frozen, the same properties. -/
structure StaysClosed (o : ObjectId) (level : IntegrityLevel) (s : Object) (m : Machine σ)
    (s' : Object) : Prop where
  cell : m.heap.cell o = .value (.object s')
  test : ∀ (E : Embedder σ) (fuel : Nat),
    execute E (fuel + 1) (Program.testIntegrityLevel o level) m = (.value true, m)
  keys : ∀ k, k ∈ s'.keys ↔ k ∈ s.keys
  own? : level = .frozen → ∀ k, s'.own? k = s.own? k

theorem staysClosed {level : IntegrityLevel} (hs : s.isClosed level) (h : s.Holds s')
    (ho : m.heap.objects[o.index]? = some (.object s')) : StaysClosed o level s m s' where
  cell := by rw [Heap.cell, ho]
  test E fuel := by rw [execute_testIntegrityLevel E fuel level ho, h.isClosed hs]
  keys k := by
    refine PropertyTable.mem_keys.trans (Iff.trans ?_ PropertyTable.mem_keys.symm)
    exact Eq.to_iff (congrArg (· = true) (h.isSome_own? hs k))
  own? hfrozen := by
    subst hfrozen
    exact h.own?_of_frozen hs

/-- **Integrity.** Take an object in a machine that a run passes through.

It can be sealed and frozen: this closes its properties and leaves their order, what they hold
and the prototype as they were. Whatever runs follow, the object stays closed and keeps its keys
and its prototype, and if it is frozen its properties.

If it is closed already, this holds to the end of the run that is under way, apart from a
prototype that it was asked for before. -/
theorem integrity_levels_hold {options : RealmOptions} {host : σ} {m₀ m : Machine σ}
    (h : (initial options host).Reaches m₀) {E : Embedder σ} {fuel : Nat} {α : Type}
    {p : Program σ α} (hp : Passes E fuel α p m₀ m) {o : ObjectId} {s : Object}
    (ho : m.heap.cell o = .value (.object s)) (level : IntegrityLevel) :
    (∀ (E' : Embedder σ) (fuel' : Nat), ∃ s',
      execute E' (fuel' + 1) (Program.setIntegrityLevel o level) m =
        (.value true, m.setObject o s') ∧
      StaysClosed o level s' (m.setObject o s') s' ∧
      s'.keys = s.keys ∧ s'.prototype = s.prototype ∧
      (∀ k, s'.own? k = (s.own? k).map level.close) ∧
      ∀ later now, (m.setObject o s').Reaches later →
        ∀ (E'' : Embedder σ) (fuel'' : Nat) (β : Type) (q : Program σ β),
          Passes E'' fuel'' β q later now →
            ∃ s'', StaysClosed o level s' now s'' ∧ s''.prototype = s.prototype) ∧
    (s.isClosed level → ∃ s', StaysClosed o level s (execute E fuel p m₀).2 s') := by
  have hsound := hp.sound h
  have hobject := getElem?_of_cell ho
  refine ⟨fun E' fuel' => ?_, fun hclosed => ?_⟩
  · obtain ⟨s', hset, hclosed, hcloses⟩ :=
      execute_setIntegrityLevel E' fuel' level hobject hsound
    have hobject' := getElem?_setObject hobject s'
    have hsound' : (m.setObject o s').heap.Sound := by
      have hchanges := changes_execute E' (fuel' + 1) (Program.setIntegrityLevel o level) m
      rw [hset] at hchanges
      exact hchanges.sound hsound
    refine ⟨s', hset, staysClosed hclosed (Object.Evolves.refl s').toHolds hobject',
      hcloses.keys, hcloses.prototype, hcloses.own?_keys, ?_⟩
    intro later now hlater E'' fuel'' β q hnow
    obtain ⟨s'', hs'', -, hevolves⟩ :=
      (hlater.changes.trans hnow.changes).evolves hsound' _ s' hobject'
    have hpromise := hevolves rfl
    refine ⟨s'', staysClosed hclosed hpromise.toHolds hs'', ?_⟩
    exact (hpromise.prototype (Object.isClosed_iff.mp hclosed).1).trans hcloses.prototype
  · obtain ⟨s', hs', hholds, -⟩ := hp.rest.evolves hsound _ s hobject
    exact ⟨s', staysClosed hclosed hholds hs'⟩

/-- An array is frozen, and is then asked for a shorter length, to drop an element, for another
element, for another value and for another prototype. -/
theorem integrity_levels_hold_array :
    let p : Program Unit Bool := do
      let a ← Program.allocate (.array 0 none)
      let _ ← Program.defineOwnProperty a (.index 0) (.data .null true true true)
      Program.defineOwnProperty a (.index 1) (.data .null true true true)
    let q : Program Unit Bool := do
      let _ ← Program.defineOwnProperty ⟨11⟩ Object.lengthKey (.ofValue (.number (.ofNat 0)))
      let _ ← Program.delete ⟨11⟩ (.index 1)
      let _ ← Program.defineOwnProperty ⟨11⟩ (.index 2) (.data .null true true true)
      let _ ← Program.setFor ⟨11⟩ (.index 0) .undefined (.object ⟨11⟩)
      Program.setPrototypeOf ⟨11⟩ none
    let m := (execute default 1 p (initial {} ())).2
    let m' := (execute default 1 (Program.setIntegrityLevel ⟨11⟩ .frozen) m).2
    let m'' := (execute default 4 q m').2
    ∃ s s' s'', m.heap.cell ⟨11⟩ = .value (.object s) ∧ s.isArray ∧
      m'.heap.cell ⟨11⟩ = .value (.object s') ∧
      s'.own? (.index 0) = some (.data .null false true false) ∧
      StaysClosed ⟨11⟩ .frozen s' m'' s'' ∧ s''.prototype = s.prototype := by
  intro p q m m' m''
  have hobject : holdsObject m.heap ⟨11⟩ (fun s =>
      s.isArray && s.own? (.index 0) = some (.data .null true true true)) := by decide +kernel
  obtain ⟨s, hcell, hcheck⟩ := exists_of_holdsObject hobject
  obtain ⟨harray, hzero⟩ := (Bool.and_eq_true _ _).mp hcheck
  obtain ⟨s', hset, hstays, -, -, hown, hlater⟩ :=
    (integrity_levels_hold (.refl _) (passes_end default 1 p _) hcell .frozen).1 default 0
  have hset' : execute default 1 (Program.setIntegrityLevel ⟨11⟩ .frozen) m =
      (.value true, m.setObject ⟨11⟩ s') := hset
  have hm' : m' = m.setObject ⟨11⟩ s' := by simp only [m', hset']
  have hreaches : (m.setObject ⟨11⟩ s').Reaches m'' := hm' ▸ .run (.refl m') default 4 q
  obtain ⟨s'', hstays', hprototype⟩ :=
    hlater m'' m'' hreaches default 0 Unit (.done ()) (.here _ m'')
  refine ⟨s, s', s'', hcell, harray, hm' ▸ hstays.cell, ?_, hstays', hprototype⟩
  rw [hown, of_decide_eq_true hzero]
  rfl

end Machine

end Ecma
