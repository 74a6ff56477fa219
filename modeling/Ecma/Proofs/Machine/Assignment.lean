import Ecma.Proofs.Machine.OwnProperty

/-!
# Assigning to a property

To set a property the chain is walked up to the nearest one, and what follows is done for the
receiver. If that property is an accessor, its setter is called or there is none. If it is a
value, or there is no property at all, nothing but the receiver matters: it takes the value if
the nearest property is writable and the receiver has the property already or can have it
(`Object.store`).

**Assigning** (`set_through_nearest`) therefore either comes to one call, or changes one
property of one object and is seen by reading it.
-/

namespace Ecma

namespace Object

variable {s : Object} {k : PropertyKey} {v : Value}

/-! ## The receiver -/

/-- Take a value as a property: one that is there keeps its flags, a new one has them all. -/
def store (s : Object) (k : PropertyKey) (v : Value) : Bool × Object :=
  match s.own? k with
  | some p => if p.isWritable then s.define k (.ofValue v) else (false, s)
  | none => s.define k (.data v true true true)

/-- The property that holds a value after it has been taken. -/
def stored (s : Object) (k : PropertyKey) (v : Value) : Property :=
  match s.own? k with
  | some p => { p with slot := .data v true }
  | none => .data v true true true

/-- A property that is writable takes every value. -/
theorem define_ofValue {p : Property} (hp : s.own? k = some p) (hw : p.isWritable = true) :
    s.define k (.ofValue v) = (true, s.put k { p with slot := .data v true }) := by
  obtain ⟨⟨u, w⟩ | ⟨get, set⟩, e, c⟩ := p
  · obtain rfl : w = true := hw
    rw [define, hp]
    cases c <;> rfl
  · cases hw

/-- A value is taken if there is a writable property for it, or none and room for one. -/
theorem store_eq (s : Object) (k : PropertyKey) (v : Value) :
    s.store k v =
      if (s.own? k).elim s.extensible Property.isWritable then (true, s.put k (s.stored k v))
      else (false, s) := by
  rw [store, stored]
  rcases hown : s.own? k with _ | p
  · dsimp only
    rw [define, hown]
    cases s.extensible <;> rfl
  · rcases hw : p.isWritable with _ | _
    · simp [hw]
    · simp [hw, define_ofValue hown hw]

end Object

namespace Machine

variable {σ : Type} (E : Embedder σ) {m : Machine σ} {o : ObjectId} {s : Object}
  {k : PropertyKey} {v : Value} {fuel : Nat}

theorem execute_setOnReceiver (ho : m.heap.objects[o.index]? = some (.object s))
    (hs : s.kind ≠ .array) (fuel : Nat) (k : PropertyKey) (v : Value) :
    execute E (fuel + 1) (Program.setOnReceiver k v (.object o)) m =
      (.value (s.store k v).1, m.setObject o (s.store k v).2) := by
  rw [Program.setOnReceiver, execute_bind (execute_getOwnProperty E ho fuel k), Object.store]
  rcases s.own? k with _ | p
  · exact execute_define E ho fuel hs k _
  · dsimp only
    split
    · exact execute_define E ho fuel hs k _
    · rw [setObject_self ho]
      rfl

/-! ## The nearest property -/

/-- An object takes a value: the nearest property does not forbid it, and the object has the
property or can have it. -/
def takes (m : Machine σ) (l : List ObjectId) (s : Object) (k : PropertyKey) : Bool :=
  (m.heap.nearest? k l).all Property.isWritable && ((s.own? k).isSome || s.extensible)

theorem takes_iff {l : List ObjectId} :
    m.takes l s k = true ↔ (∀ p ∈ m.heap.nearest? k l, p.isWritable = true) ∧
      ((s.own? k).isSome ∨ s.extensible = true) := by
  simp [takes, Option.all_eq_true]

/-- An own property is nearest. -/
theorem nearest?_of_own? {l : List ObjectId} (hl : m.heap.Chain (some o) l)
    (ho : m.heap.objects[o.index]? = some (.object s)) {p : Property} (hp : s.own? k = some p) :
    m.heap.nearest? k l = some p := by
  cases hl with
  | cons hq hl => rw [Heap.nearest?_cons ho, hp, Option.some_or]

/-- It is the nearest property and the own one that must be writable, and the object must be
extensible if it has none. -/
theorem takes_eq {l : List ObjectId} (hl : m.heap.Chain (some o) l)
    (ho : m.heap.objects[o.index]? = some (.object s)) :
    m.takes l s k =
      (((m.heap.nearest? k l).getD (.data .undefined true true true)).isWritable &&
        (s.own? k).elim s.extensible Property.isWritable) := by
  rw [takes]
  rcases hown : s.own? k with _ | p
  · rcases m.heap.nearest? k l with _ | p <;> rfl
  · rw [nearest?_of_own? hl ho hown]
    cases hw : p.isWritable <;> simp [hw]

/-- What is set through a value, the own property of the receiver apart. -/
theorem execute_setThrough_data (ho : m.heap.objects[o.index]? = some (.object s))
    (hs : s.kind ≠ .array) (fuel : Nat) {p : Property} (hp : p.isData = true) (k : PropertyKey)
    (v : Value) :
    execute E (fuel + 1) (Program.setThrough p k v (.object o)) m =
      if p.isWritable then (.value (s.store k v).1, m.setObject o (s.store k v).2)
      else (.value false, m) := by
  obtain ⟨⟨u, _ | _⟩ | ⟨get, set⟩, e, c⟩ := p
  · rfl
  · exact execute_setOnReceiver E ho hs fuel k v
  · cases hp

/-- Setting through a value or nothing stores it on the receiver, if it takes it. -/
theorem execute_setFor_data (ho : m.heap.objects[o.index]? = some (.object s))
    (hs : s.kind ≠ .array) {l : List ObjectId} (hl : m.heap.Chain (some o) l)
    (hdata : ∀ p ∈ m.heap.nearest? k l, p.isData = true) (hfuel : l.length < fuel) (v : Value) :
    execute E fuel (Program.setFor o k v (.object o)) m =
      (.value (m.takes l s k),
        m.setObject o (if m.takes l s k then s.put k (s.stored k v) else s)) := by
  obtain ⟨depth, hdepth, heq⟩ := execute_setFor_nearest E hl hfuel k v (.object o)
  obtain ⟨depth, rfl⟩ : ∃ n, depth = n + 1 := ⟨depth - 1, by omega⟩
  have hdata : ((m.heap.nearest? k l).getD (.data .undefined true true true)).isData = true := by
    rcases hnear : m.heap.nearest? k l with _ | p
    · rfl
    · exact hdata p hnear
  rw [heq, execute_setThrough_data E ho hs depth hdata, Object.store_eq, takes_eq hl ho]
  generalize ((m.heap.nearest? k l).getD _).isWritable = nearest
  generalize (s.own? k).elim _ _ = own
  cases nearest <;> cases own <;> simp [setObject_self ho]

theorem execute_set {granted : Bool} {m' : Machine σ}
    (h : execute E fuel (Program.setFor o k v (.object o)) m = (.value granted, m')) (must : Bool) :
    execute E fuel (Program.set o k v must) m =
      (if !granted && must then .raise (.readOnly k.toText) else .value granted, m') := by
  rw [Program.set, execute_bind h]
  split <;> rfl

/-- A property whose value is nearest is read without running code. -/
theorem execute_get_data {l : List ObjectId} (hl : m.heap.Chain (some o) l)
    (hfuel : l.length < fuel) {p : Property} (hp : m.heap.nearest? k l = some p)
    (hv : p.value? = some v) : execute E fuel (Program.get o k) m = (.value v, m) := by
  obtain ⟨depth, -, heq⟩ := execute_getFor_nearest E hl hfuel k (.object o)
  rw [Program.get, heq, hp]
  obtain ⟨⟨u, w⟩ | ⟨get, set⟩, e, c⟩ := p
  · obtain rfl : u = v := Option.some.inj hv
    rfl
  · cases hv

section

variable {l : List ObjectId} (hl : m.heap.Chain (some o) l) (hfuel : l.length < fuel)
include hl hfuel

/-- A value that was taken is read. -/
theorem execute_get_stored (ho : m.heap.objects[o.index]? = some (.object s)) (v : Value) :
    execute E fuel (Program.get o k) (m.setObject o (s.put k (s.stored k v))) =
      (.value v, m.setObject o (s.put k (s.stored k v))) := by
  have hstored : (s.put k (s.stored k v)).own? k = some (s.stored k v) := by
    rw [Object.own?_put, if_pos rfl]
  have hprototype : (s.put k (s.stored k v)).prototype = s.prototype := rfl
  have hchain := chain_setObject ho hprototype hl
  have hnearest := nearest?_of_own? hchain (getElem?_setObject ho _) hstored
  refine execute_get_data E hchain hfuel hnearest ?_
  rw [Object.stored]
  rcases s.own? k with _ | p <;> rfl

/-- Setting through an accessor with a setter is calling it. -/
theorem execute_set_setter {p : Property} (hp : m.heap.nearest? k l = some p) {setter : ObjectId}
    (hsetter : p.setter = some setter) (must : Bool) :
    ∃ depth, fuel ≤ depth + l.length ∧
      execute E fuel (Program.set o k v must) m =
        execute E depth (do
          let _ ← Program.callObject setter (.object o) [v]
          return true) m := by
  obtain ⟨depth, hdepth, heq⟩ := execute_setFor_nearest E hl hfuel k v (.object o)
  refine ⟨depth, hdepth, ?_⟩
  obtain ⟨⟨u, w⟩ | ⟨get, set⟩, e, c⟩ := p
  · cases hsetter
  obtain rfl : set = some setter := hsetter
  have hcall : execute E fuel (Program.setFor o k v (.object o)) m =
      execute E depth (Program.callObject setter (.object o) [v] >>= fun _ => pure true) m := by
    rw [heq, hp]
    rfl
  rw [Program.set, execute_bind_eq, Run.bind, hcall, execute_bind_eq, Run.bind]
  -- whatever the call answers, the answer to the request is yes and nothing is left to do
  rcases execute E depth (Program.callObject setter (.object o) [v]) m with
    ⟨a | f | stop, m'⟩ <;> rfl

/-- Setting through an accessor without a setter is refused. -/
theorem execute_set_no_setter {p : Property} (hp : m.heap.nearest? k l = some p)
    (hdata : p.isData = false) (must : Bool) (hsetter : p.setter = none) :
    execute E fuel (Program.set o k v must) m =
      (if must then .raise (.readOnly k.toText) else .value false, m) := by
  obtain ⟨depth, hdepth, heq⟩ := execute_setFor_nearest E hl hfuel k v (.object o)
  obtain ⟨⟨u, w⟩ | ⟨get, set⟩, e, c⟩ := p
  · cases hdata
  obtain rfl : set = none := hsetter
  rw [hp] at heq
  exact execute_set E heq must

end

/-! ## Assigning -/

/-- **Assigning.** Take an object that is not an array, with a chain of prototypes that ends.

If the nearest property is a value, or there is none, assigning runs no code. It succeeds if
the nearest property is writable and the object has the property itself or is extensible. Then
the object has the value in the property, which keeps its flags if it was there, reading the
property gives the value, and no other property of any object changes. If it does not succeed,
nothing changes.

If the nearest property is an accessor with a setter, assigning comes to calling it once for
the object with the value. Without a setter it does not succeed and nothing changes. -/
theorem set_through_nearest (ho : m.heap.cell o = .value (.object s)) (hs : s.kind ≠ .array)
    {l : List ObjectId} (hl : m.heap.Chain (some o) l) (k : PropertyKey) (v : Value) :
    ((∀ p ∈ m.heap.nearest? k l, p.isData = true) →
      ∃ granted s',
        (∀ (E : Embedder σ) (fuel : Nat) (must : Bool), l.length < fuel →
          execute E fuel (Program.set o k v must) m =
            (if !granted && must then .raise (.readOnly k.toText) else .value granted,
              m.setObject o s')) ∧
        (granted = true ↔ (∀ p ∈ m.heap.nearest? k l, p.isWritable = true) ∧
          ((s.own? k).isSome ∨ s.extensible = true)) ∧
        (granted = false → m.setObject o s' = m) ∧
        (granted = true →
          s'.own? k = some (s.stored k v) ∧ s.AlikeBut k s' ∧
          (∀ (E : Embedder σ) (fuel : Nat), l.length < fuel →
            execute E fuel (Program.get o k) (m.setObject o s') = (.value v, m.setObject o s')) ∧
          ∀ q j, q ≠ o ∨ j ≠ k → (m.setObject o s').heap.own? q j = m.heap.own? q j)) ∧
    ∀ p, m.heap.nearest? k l = some p → p.isData = false →
      ∀ (E : Embedder σ) (fuel : Nat) (must : Bool), l.length < fuel →
        (∀ setter, p.setter = some setter → ∃ depth, fuel ≤ depth + l.length ∧
          execute E fuel (Program.set o k v must) m =
            execute E depth (do
              let _ ← Program.callObject setter (.object o) [v]
              return true) m) ∧
        (p.setter = none → execute E fuel (Program.set o k v must) m =
          (if must then .raise (.readOnly k.toText) else .value false, m)) := by
  have hobject := getElem?_of_cell ho
  refine ⟨fun hdata => ?_, fun p hp hdata E fuel must hfuel => ⟨fun setter hsetter => ?_, ?_⟩⟩
  · refine ⟨m.takes l s k, _, fun E fuel must hfuel =>
      execute_set E (execute_setFor_data E hobject hs hl hdata hfuel v) must, takes_iff,
      fun hrefused => ?_, fun hgranted => ?_⟩
    · rw [hrefused]
      exact setObject_self hobject
    · rw [if_pos hgranted]
      exact ⟨by rw [Object.own?_put, if_pos rfl], s.alikeBut_put k _,
        fun E fuel hfuel => execute_get_stored E hl hfuel hobject v,
        fun q j hne => own?_setObject_put hobject hne _⟩
  · exact execute_set_setter E hl hfuel hp hsetter must
  · exact execute_set_no_setter E hl hfuel hp hdata must

/-- An object inherits a setter that keeps a record of its calls. Assigning to the property
calls it once; assigning to another property stores the value. -/
theorem set_through_nearest_setter :
    let E : Embedder (List (Value × List Value)) :=
      { (default : Embedder (List (Value × List Value))) with
        call := fun _ this args => do
          let calls ← Program.load
          Program.store (calls ++ [(this, args)])
          return .undefined }
    let p : Program (List (Value × List Value)) ObjectId := do
      let parent ← Program.allocate (.ordinary none "Object" none false)
      let f ← Program.allocate (.function "set" 1 ⟨0⟩ none)
      let _ ← Program.defineOwnProperty parent (.string "a") { set := some (.object f) }
      Program.allocate (.ordinary (some parent) "Object" none false)
    let m := (execute E 1 p (initial {} [])).2
    ∃ s s' depth, m.heap.cell ⟨13⟩ = .value (.object s) ∧ s.kind ≠ .array ∧
      m.heap.Chain (some ⟨13⟩) [⟨13⟩, ⟨11⟩] ∧
      execute E 3 (Program.set ⟨13⟩ (.string "a") .null true) m =
        execute E depth (do
          let _ ← Program.callObject ⟨12⟩ (.object ⟨13⟩) [.null]
          return true) m ∧
      (execute E 3 (Program.set ⟨13⟩ (.string "a") .null true) m).2.host =
        [(.object ⟨13⟩, [.null])] ∧
      execute E 3 (Program.set ⟨13⟩ (.string "b") .null true) m =
        (.value true, m.setObject ⟨13⟩ s') ∧
      execute E 3 (Program.get ⟨13⟩ (.string "b")) (m.setObject ⟨13⟩ s') =
        (.value .null, m.setObject ⟨13⟩ s') := by
  intro E p m
  have hobject : holdsObject m.heap ⟨13⟩ (fun s =>
      !s.isArray && s.extensible && s.prototype = some ⟨11⟩) := by decide +kernel
  have hparent : holdsObject m.heap ⟨11⟩ (fun s => s.prototype = none) := by decide +kernel
  have hsetter : m.heap.nearest? (.string "a") [⟨13⟩, ⟨11⟩] =
      some (.accessor none (some ⟨12⟩) false false) := by decide +kernel
  have hnone : m.heap.nearest? (.string "b") [⟨13⟩, ⟨11⟩] = none := by decide +kernel
  have hhost : (execute E 3 (Program.set ⟨13⟩ (.string "a") .null true) m).2.host =
      [(.object ⟨13⟩, [.null])] := by decide +kernel
  obtain ⟨s, hcell, hcheck⟩ := exists_of_holdsObject hobject
  obtain ⟨parent, hbase, hend⟩ := exists_of_holdsObject hparent
  simp only [Bool.and_eq_true, decide_eq_true_eq] at hcheck
  obtain ⟨⟨hkind, hext⟩, hproto⟩ := hcheck
  have hs : s.kind ≠ .array := by simpa [Object.isArray] using hkind
  have hl : m.heap.Chain (some ⟨13⟩) [⟨13⟩, ⟨11⟩] :=
    .cons ⟨s, getElem?_of_cell hcell, hproto⟩
      (.cons ⟨parent, getElem?_of_cell hbase, of_decide_eq_true hend⟩ .nil)
  obtain ⟨depth, -, hcall⟩ := ((set_through_nearest hcell hs hl (.string "a") .null).2 _ hsetter
    rfl E 3 true (by decide)).1 ⟨12⟩ rfl
  obtain ⟨granted, s', hrun, hiff, -, hthen⟩ :=
    (set_through_nearest hcell hs hl (.string "b") .null).1 (by simp [hnone])
  obtain rfl : granted = true := hiff.mpr ⟨by simp [hnone], .inr hext⟩
  exact ⟨s, s', depth, hcell, hs, hl, hcall, hhost, hrun E 3 true (by decide),
    (hthen rfl).2.2.1 E 3 (by decide)⟩

end Machine

end Ecma
