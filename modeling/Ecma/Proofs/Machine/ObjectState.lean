import Ecma.Proofs.Machine.ChainWalk

/-!
# Another state of an object

A request to one object that runs no program comes to replacing its state by another one
(`Machine.setObject`, `onObject_eq`). This is seen at that object alone: all others keep their
properties, and the prototype chains are as they were if the object keeps its prototype. Creating
an object adds one in its first state (`Machine.grow`), which can be replaced like any other.
-/

namespace Ecma

namespace Heap

variable {h : Heap} {o : ObjectId} {s : Object}

/-- A change of an object is as good as its result. -/
theorem modifyObject_eq_const (ho : h.objects[o.index]? = some (.object s)) (f : Object → Object) :
    h.modifyObject o f = h.modifyObject o fun _ => f s := by
  have hobjects : (h.modifyObject o f).objects = (h.modifyObject o fun _ => f s).objects := by
    refine Array.ext_getElem? fun i => ?_
    rw [getElem?_modifyObject, getElem?_modifyObject]
    split
    · next heq =>
      rw [heq, ho]
      rfl
    · rfl
  exact congrArg (fun objects => { h with objects := objects }) hobjects

theorem modifyObject_const_const (h : Heap) (o : ObjectId) (s s' : Object) :
    (h.modifyObject o fun _ => s).modifyObject o (fun _ => s') = h.modifyObject o fun _ => s' := by
  have hobjects : ((h.modifyObject o fun _ => s).modifyObject o fun _ => s').objects =
      (h.modifyObject o fun _ => s').objects := by
    refine Array.ext_getElem? fun i => ?_
    simp only [getElem?_modifyObject]
    split
    · rcases h.objects[i]? with _ | ⟨s⟩ | x <;> rfl
    · rfl
  exact congrArg (fun objects => { h with objects := objects }) hobjects

end Heap

namespace Machine

variable {σ : Type} {m : Machine σ} {o : ObjectId} {s s' : Object}

/-- The machine with another state of an object. -/
def setObject (m : Machine σ) (o : ObjectId) (s : Object) : Machine σ :=
  { m with heap := m.heap.modifyObject o fun _ => s }

theorem getElem?_setObject (ho : m.heap.objects[o.index]? = some (.object s)) (s' : Object) :
    (m.setObject o s').heap.objects[o.index]? = some (.object s') := by
  rw [setObject, Heap.exists_modifyObject ho, if_pos rfl]

theorem setObject_self (ho : m.heap.objects[o.index]? = some (.object s)) :
    m.setObject o s = m := by
  rw [setObject, Heap.modifyObject_eq_self ho rfl]

theorem setObject_setObject (m : Machine σ) (o : ObjectId) (s s' : Object) :
    (m.setObject o s).setObject o s' = m.setObject o s' := by
  simp only [setObject, Heap.modifyObject_const_const]

theorem onObject_eq {α : Type} (ho : m.heap.objects[o.index]? = some (.object s))
    (f : Object → α × Object) : Run.onObject o f m = (.value (f s).1, m.setObject o (f s).2) := by
  simp only [Run.onObject, Run.tryHeap, Heap.cell, ho, Outcome.value_bind, Outcome.pure_eq]
  rw [Heap.modifyObject_eq_const ho fun s => (f s).2]
  rfl

/-- What an object that is not an array makes of a request is up to the rule. -/
theorem execute_define (E : Embedder σ) (ho : m.heap.objects[o.index]? = some (.object s))
    (fuel : Nat) (hs : s.kind ≠ .array) (k : PropertyKey) (d : Descriptor) :
    execute E (fuel + 1) (Program.defineOwnProperty o k d) m =
      (.value (s.define k d).1, m.setObject o (s.define k d).2) := by
  refine ((execute_method E _ _ m).trans (respond_object E ho fuel)).trans ?_
  simp only [respondObject]
  rcases ha : s.kind with _ | _ | _
  · exact onObject_eq ho _
  · exact absurd ha hs
  · exact onObject_eq ho _

/-- An array asks for nothing either, unless its length is concerned. -/
theorem execute_defineInArray (E : Embedder σ) (ho : m.heap.objects[o.index]? = some (.object s))
    (fuel : Nat) (hs : s.kind = .array) {k : PropertyKey} (hk : k ≠ Object.lengthKey)
    (d : Descriptor) :
    execute E (fuel + 1) (Program.defineOwnProperty o k d) m =
      (.value (s.defineInArray k d).1, m.setObject o (s.defineInArray k d).2) := by
  refine ((execute_method E _ _ m).trans (respond_object E ho fuel)).trans ?_
  simp only [respondObject, hs, defineInArray, if_neg hk]
  exact onObject_eq ho _

/-- Nothing but the object is another one. -/
theorem getElem?_setObject_ne {i : Nat} (hi : i ≠ o.index) (m : Machine σ) (s : Object) :
    (m.setObject o s).heap.objects[i]? = m.heap.objects[i]? := by
  rw [setObject, Heap.getElem?_modifyObject, if_neg hi]

/-- What the objects have when one of them is in another state. -/
theorem own?_setObject (ho : m.heap.objects[o.index]? = some (.object s)) (s' : Object)
    (q : ObjectId) (k : PropertyKey) :
    (m.setObject o s').heap.own? q k = if q = o then s'.own? k else m.heap.own? q k := by
  by_cases hq : q = o
  · rw [if_pos hq, hq, Heap.own?_eq (getElem?_setObject ho s')]
  · rw [if_neg hq, Heap.own?, Heap.own?, getElem?_setObject_ne (ObjectId.index_ne hq)]

/-- Storing a property changes no other property of any object. -/
theorem own?_setObject_put (ho : m.heap.objects[o.index]? = some (.object s)) {q : ObjectId}
    {k j : PropertyKey} (hne : q ≠ o ∨ j ≠ k) (p : Property) :
    (m.setObject o (s.put k p)).heap.own? q j = m.heap.own? q j := by
  rw [own?_setObject ho]
  split
  · next hq =>
    rw [Object.own?_put, if_neg (hne.resolve_left fun hnot => hnot hq), hq, Heap.own?_eq ho]
  · rfl

/-- An object that keeps its prototype leaves every chain as it is. -/
theorem chain_setObject (ho : m.heap.objects[o.index]? = some (.object s))
    (hproto : s'.prototype = s.prototype) {start : Option ObjectId} {l : List ObjectId}
    (hl : m.heap.Chain start l) : (m.setObject o s').heap.Chain start l := by
  refine hl.frame_objects fun q _ t hq => ?_
  by_cases hindex : q.index = o.index
  · rw [hindex] at hq ⊢
    obtain rfl := Heap.object_inj ho hq
    exact ⟨s', getElem?_setObject ho s', hproto⟩
  · exact ⟨t, by rw [getElem?_setObject_ne hindex, hq], rfl⟩

/-! ## A new object -/

/-- The next object that is created. -/
def fresh (m : Machine σ) : ObjectId := ⟨m.heap.objects.size⟩

/-- The machine with a new object in some state. -/
def grow (m : Machine σ) (s : Object) : Machine σ :=
  { m with heap := (m.heap.allocate (.object s)).2 }

theorem getElem?_grow_fresh (m : Machine σ) (s : Object) :
    (m.grow s).heap.objects[m.fresh.index]? = some (.object s) := by
  rw [grow, Heap.getElem?_allocate]
  exact if_pos rfl

/-- The objects that were there have what they had. -/
theorem own?_grow (m : Machine σ) (s : Object) {q : ObjectId} (hq : q.index < m.heap.objects.size)
    (k : PropertyKey) : (m.grow s).heap.own? q k = m.heap.own? q k := by
  rw [Heap.own?, Heap.own?, grow, Heap.getElem?_allocate, if_neg (Nat.ne_of_lt hq)]

theorem setObject_grow (m : Machine σ) (s s' : Object) :
    (m.grow s).setObject m.fresh s' = m.grow s' := by
  have hobjects : ((m.grow s).setObject m.fresh s').heap.objects = (m.grow s').heap.objects := by
    refine Array.ext_getElem? fun i => ?_
    by_cases hi : i = m.fresh.index
    · rw [hi, getElem?_setObject (m.getElem?_grow_fresh s), getElem?_grow_fresh]
    · rw [getElem?_setObject_ne hi, grow, grow, Heap.getElem?_allocate, Heap.getElem?_allocate]
      exact (if_neg hi).trans (if_neg hi).symm
  exact congrArg (fun objects => { m with heap := { m.heap with objects := objects } }) hobjects

theorem execute_allocate (E : Embedder σ) (fuel : Nat) {b : Blueprint}
    (hb : b.build = .value (.object s)) (hs : ∀ p ∈ s.prototype, p.index < m.heap.objects.size) :
    execute E fuel (Program.allocate b) m = (.value m.fresh, m.grow s) := by
  have hthere : (Cell.object s).prototype?.all (fun p => p.index < m.heap.objects.size) = true :=
    (Option.all_eq_true_iff_get _ _).mpr fun h => decide_eq_true (hs _ (Option.get_mem h))
  have hcreate : m.heap.create b = .value (m.heap.allocate (.object s)) := by
    rw [Heap.create, hb, Outcome.value_bind, if_pos hthere]
    rfl
  refine (Program.run_effect _ _ m).trans ?_
  simp only [handler, Run.tryHeap, hcreate]
  rfl

end Machine

end Ecma
