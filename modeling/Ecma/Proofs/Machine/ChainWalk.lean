import Ecma.Operation.Instance
import Ecma.Proofs.Machine.Changes

/-!
# Walks along a prototype chain

Getting, setting and looking for a property walk along the prototype chain: each object
looks at its own properties and passes the request on to its prototype (`lookup`). Where
the chain is known to end, so does the walk, in as many requests as the chain has links:
it finds the **nearest** property, or that there is none, and what follows is done by the
object that was asked last (`execute_lookup`). The loops that look for an object on a
chain end in the same way (`execute_chainAvoids`, `execute_inheritsFrom`). Walking changes
nothing.
-/

namespace Ecma

namespace Heap

/-- The own property of an object of the model. -/
def own? (h : Heap) (o : ObjectId) (k : PropertyKey) : Option Property :=
  match h.objects[o.index]? with
  | some (.object s) => s.own? k
  | some (.exotic _) => none
  | none => none

theorem own?_eq {h : Heap} {o : ObjectId} {s : Object}
    (ho : h.objects[o.index]? = some (.object s)) (k : PropertyKey) : h.own? o k = s.own? k := by
  rw [own?, ho]

/-- The first property on the way along some objects. -/
def nearest? (h : Heap) (k : PropertyKey) (l : List ObjectId) : Option Property :=
  l.findSome? fun o => h.own? o k

theorem nearest?_cons {h : Heap} {o : ObjectId} {s : Object}
    (ho : h.objects[o.index]? = some (.object s)) (k : PropertyKey) (l : List ObjectId) :
    h.nearest? k (o :: l) = (s.own? k).or (h.nearest? k l) := by
  rw [nearest?, List.findSome?_cons, own?_eq ho]
  cases s.own? k <;> rfl

end Heap

namespace Program

variable {σ β : Type}

/-- Look for a property: `act` on what is found, or on nothing at the end of the chain;
`ask` the prototype otherwise. -/
def lookup (ask : ObjectId → Program σ β) (act : Option Property → Program σ β) (k : PropertyKey)
    (o : ObjectId) : Program σ β := do
  match ← getOwnProperty o k with
  | some p => act (some p)
  | none =>
    match ← getPrototypeOf o with
    | some parent => ask parent
    | none => act none

theorem ordinaryHas_eq (o : ObjectId) (k : PropertyKey) :
    (ordinaryHas o k : Program σ Bool) =
      lookup (hasProperty · k) (fun p => pure p.isSome) k o :=
  rfl

theorem ordinaryGet_eq (o : ObjectId) (k : PropertyKey) (receiver : Value) :
    (ordinaryGet o k receiver : Program σ Value) =
      lookup (getFor · k receiver)
        (fun p => p.elim (pure .undefined) (getThrough · receiver)) k o :=
  rfl

theorem ordinarySet_eq (o : ObjectId) (k : PropertyKey) (v receiver : Value) :
    (ordinarySet o k v receiver : Program σ Bool) =
      lookup (setFor · k v receiver)
        (fun p => setThrough (p.getD (.data .undefined true true true)) k v receiver) k o := by
  refine congrArg (getOwnProperty o k).bind (funext fun own => ?_)
  cases own <;> rfl

end Program

namespace Machine

variable {σ α β : Type} (E : Embedder σ) {m : Machine σ} {o : ObjectId} {s : Object}

/-! ## One request -/

/-- An object of the model answers by the rules of the model. -/
theorem respond_object {r : Request} (ho : m.heap.objects[r.target.index]? = some (.object s))
    (fuel : Nat) :
    respond E (fuel + 1) r m = respondObject E (handler fuel (respond E fuel)) fuel s r m := by
  simp only [respond, Heap.cell, ho]

variable (ho : m.heap.objects[o.index]? = some (.object s)) (fuel : Nat)
include ho

theorem execute_getPrototypeOf :
    execute E (fuel + 1) (Program.getPrototypeOf o) m = (.value s.prototype, m) :=
  (execute_method E _ _ m).trans (respond_object E ho fuel)

theorem execute_getOwnProperty (k : PropertyKey) :
    execute E (fuel + 1) (Program.getOwnProperty o k) m = (.value (s.own? k), m) :=
  (execute_method E _ _ m).trans (respond_object E ho fuel)

theorem execute_ownKeys :
    execute E (fuel + 1) (Program.ownKeys o) m = (.value s.keys, m) :=
  (execute_method E _ _ m).trans (respond_object E ho fuel)

theorem execute_isExtensible :
    execute E (fuel + 1) (Program.isExtensible o) m = (.value s.extensible, m) :=
  (execute_method E _ _ m).trans (respond_object E ho fuel)

theorem execute_hasProperty (k : PropertyKey) :
    execute E (fuel + 1) (Program.hasProperty o k) m =
      execute E fuel (Program.lookup (Program.hasProperty · k) (fun p => pure p.isSome) k o) m := by
  rw [← Program.ordinaryHas_eq]
  exact (execute_method E _ _ m).trans (respond_object E ho fuel)

theorem execute_hasProperty_own {k : PropertyKey} {p : Property} (hp : s.own? k = some p) :
    execute E (fuel + 2) (Program.hasProperty o k) m = (.value true, m) := by
  rw [execute_hasProperty E ho, Program.lookup,
    execute_bind (execute_getOwnProperty E ho fuel k), hp]
  rfl

theorem execute_hasProperty_parent {k : PropertyKey} (hnone : s.own? k = none) {parent : ObjectId}
    (hparent : s.prototype = some parent) :
    execute E (fuel + 2) (Program.hasProperty o k) m =
      execute E (fuel + 1) (Program.hasProperty parent k) m := by
  rw [execute_hasProperty E ho, Program.lookup,
    execute_bind (execute_getOwnProperty E ho fuel k), hnone]
  refine (execute_bind (execute_getPrototypeOf E ho fuel) _).trans ?_
  rw [hparent]

theorem execute_getFor (k : PropertyKey) (receiver : Value) :
    execute E (fuel + 1) (Program.getFor o k receiver) m =
      execute E fuel (Program.lookup (Program.getFor · k receiver)
        (fun p => p.elim (pure .undefined) (Program.getThrough · receiver)) k o) m := by
  rw [← Program.ordinaryGet_eq]
  exact (execute_method E _ _ m).trans (respond_object E ho fuel)

theorem execute_setFor (k : PropertyKey) (v receiver : Value) :
    execute E (fuel + 1) (Program.setFor o k v receiver) m =
      execute E fuel (Program.lookup (Program.setFor · k v receiver)
        (fun p => Program.setThrough (p.getD (.data .undefined true true true)) k v receiver)
        k o) m := by
  rw [← Program.ordinarySet_eq]
  exact (execute_method E _ _ m).trans (respond_object E ho fuel)

omit ho

/-! ## The whole chain -/

variable {l : List ObjectId} {fuel}

/-- **Lookups.** A request that each object answers by looking for a property comes to
acting on the nearest one. -/
theorem execute_lookup (ask : ObjectId → Program σ β) (act : Option Property → Program σ β)
    (k : PropertyKey)
    (hask : ∀ {o : ObjectId} {s : Object}, m.heap.objects[o.index]? = some (.object s) →
      ∀ fuel, execute E (fuel + 1) (ask o) m = execute E fuel (Program.lookup ask act k o) m)
    (hl : m.heap.Chain (some o) l) (hfuel : l.length < fuel) :
    ∃ depth, fuel ≤ depth + l.length ∧
      execute E fuel (ask o) m = execute E depth (act (m.heap.nearest? k l)) m := by
  induction l generalizing o fuel with
  | nil => cases hl
  | cons q l ih =>
    cases hl with
    | cons hq hl =>
      obtain ⟨s, ho, rfl⟩ := hq
      -- the object itself is asked for its property and its prototype, one level deeper
      rw [List.length_cons] at hfuel
      obtain ⟨fuel, rfl⟩ : ∃ n, fuel = n + 2 := ⟨fuel - 2, by omega⟩
      rw [hask ho, Program.lookup, execute_bind (execute_getOwnProperty E ho fuel k),
        Heap.nearest?_cons ho]
      rcases s.own? k with _ | p
      · dsimp only
        rw [execute_bind (execute_getPrototypeOf E ho fuel), Option.none_or]
        rcases hparent : s.prototype with _ | parent <;> rw [hparent] at hl
        · cases hl
          exact ⟨fuel + 1, by simp, rfl⟩
        · obtain ⟨depth, hdepth, heq⟩ := ih hl (Nat.lt_of_succ_lt_succ hfuel)
          exact ⟨depth, by simp only [List.length_cons]; omega, heq⟩
      · exact ⟨fuel + 1, by simp only [List.length_cons]; omega, rfl⟩

theorem execute_hasProperty_nearest (hl : m.heap.Chain (some o) l) (hfuel : l.length < fuel)
    (k : PropertyKey) :
    execute E fuel (Program.hasProperty o k) m = (.value (m.heap.nearest? k l).isSome, m) := by
  obtain ⟨depth, -, heq⟩ := execute_lookup E (Program.hasProperty · k) _ k
    (fun ho fuel => execute_hasProperty E ho fuel k) hl hfuel
  exact heq

theorem execute_getFor_nearest (hl : m.heap.Chain (some o) l) (hfuel : l.length < fuel)
    (k : PropertyKey) (receiver : Value) :
    ∃ depth, fuel ≤ depth + l.length ∧ execute E fuel (Program.getFor o k receiver) m =
      execute E depth
        ((m.heap.nearest? k l).elim (pure .undefined) (Program.getThrough · receiver)) m :=
  execute_lookup E (Program.getFor · k receiver) _ k
    (fun ho fuel => execute_getFor E ho fuel k receiver) hl hfuel

theorem execute_setFor_nearest (hl : m.heap.Chain (some o) l) (hfuel : l.length < fuel)
    (k : PropertyKey) (v receiver : Value) :
    ∃ depth, fuel ≤ depth + l.length ∧ execute E fuel (Program.setFor o k v receiver) m =
      execute E depth (Program.setThrough
        ((m.heap.nearest? k l).getD (.data .undefined true true true)) k v receiver) m :=
  execute_lookup E (Program.setFor · k v receiver) _ k
    (fun ho fuel => execute_setFor E ho fuel k v receiver) hl hfuel

/-- Looking for an object on a chain tells whether it is there. -/
theorem execute_chainAvoids {start : Option ObjectId} (hl : m.heap.Chain start l) {links : Nat}
    (hlinks : l.length ≤ links) (hfuel : l.length ≤ fuel) (o : ObjectId) :
    execute E fuel (Program.chainAvoids o links start) m = (.value (decide (o ∉ l)), m) := by
  induction hl generalizing links with
  | nil => cases links <;> rfl
  | @cons q _ l hq hl ih =>
    obtain ⟨s, hq, rfl⟩ := hq
    rw [List.length_cons] at hlinks hfuel
    obtain ⟨links, rfl⟩ : ∃ n, links = n + 1 := ⟨links - 1, by omega⟩
    obtain ⟨depth, rfl⟩ : ∃ n, fuel = n + 1 := ⟨fuel - 1, by omega⟩
    rw [Program.chainAvoids]
    by_cases hqo : q = o
    · rw [if_pos hqo]
      simp [hqo, execute]
    · rw [if_neg hqo, execute_bind (execute_getPrototypeOf E hq depth),
        ih (Nat.le_of_succ_le_succ hlinks) (Nat.le_of_succ_le hfuel)]
      simp [Ne.symm hqo]

/-- Looking for an object strictly above another tells whether it is there. -/
theorem execute_inheritsFrom (hl : m.heap.Chain (some o) l) {links : Nat}
    (hlinks : l.length ≤ links) (hfuel : l.length ≤ fuel) (p : ObjectId) :
    execute E fuel (Program.inheritsFrom p links o) m = (.value (decide (p ∈ l.tail)), m) := by
  induction l generalizing o links with
  | nil => cases hl
  | cons q l ih =>
    cases hl with
    | cons hq hl =>
      obtain ⟨s, ho, rfl⟩ := hq
      rw [List.length_cons] at hlinks hfuel
      obtain ⟨links, rfl⟩ : ∃ n, links = n + 1 := ⟨links - 1, by omega⟩
      obtain ⟨depth, rfl⟩ : ∃ n, fuel = n + 1 := ⟨fuel - 1, by omega⟩
      rw [Program.inheritsFrom, execute_bind (execute_getPrototypeOf E ho depth)]
      rcases hparent : s.prototype with _ | parent <;> rw [hparent] at hl
      · cases hl
        rfl
      · obtain ⟨rest, rfl⟩ : ∃ rest, l = parent :: rest := by
          cases hl
          exact ⟨_, rfl⟩
        dsimp only
        by_cases hp : parent = p
        · rw [if_pos hp]
          simp [hp, execute]
        · rw [if_neg hp, ih hl (Nat.le_of_succ_le_succ hlinks) (Nat.le_of_succ_le hfuel)]
          refine congrArg (fun b => (Outcome.value b, m)) (decide_eq_decide.mpr ?_)
          simp [Ne.symm hp]

/-! ## Instances -/

theorem execute_isCallableObject {c : ObjectId} {x : Cell} (hc : m.heap.cell c = .value x)
    (fuel : Nat) :
    execute E fuel (Program.isCallableObject c) m = (.value x.traits.isCallable, m) := by
  have hcell : execute E fuel (Program.cell c) m = (.value x, m) := by
    rw [Program.cell, execute_bind (execute_heap E fuel m), hc]
    rfl
  have htraits : execute E fuel (Program.traits c) m = (.value x.traits, m) := by
    rw [Program.traits, execute_bind hcell]
    rfl
  rw [Program.isCallableObject, execute_bind htraits]
  rfl

/-- Once the prototype object of a constructor is known, the chain is walked to its end. -/
theorem execute_ordinaryHasInstance {c p : ObjectId} {x : Cell} {m' : Machine σ}
    (hc : m.heap.cell c = .value x) (hx : x.traits.isCallable = true)
    (hget : execute E fuel (Program.get c (.string "prototype")) m = (.value (.object p), m'))
    (hl : m'.heap.Chain (some o) l) (hfuel : l.length ≤ fuel) :
    execute E fuel (Program.ordinaryHasInstance (.object c) (.object o)) m =
      (.value (decide (p ∈ l.tail)), m') := by
  have hbudget : execute E fuel Program.budget m' = (.value fuel, m') := Program.run_effect _ _ m'
  simp only [Program.ordinaryHasInstance]
  rw [execute_bind (execute_isCallableObject E hc fuel), hx, if_pos rfl, execute_bind hget]
  dsimp only
  rw [execute_bind hbudget, execute_inheritsFrom E hl hfuel hfuel]

/-! ## Another prototype -/

/-- An object gets another prototype unless it is not extensible or on the chain of the new
one. -/
theorem execute_setPrototypeOf (ho : m.heap.objects[o.index]? = some (.object s))
    {p : Option ObjectId} (hl : m.heap.Chain p l) (hfuel : l.length < fuel) :
    execute E fuel (Program.setPrototypeOf o p) m =
      if p = s.prototype ∨ s.extensible = true ∧ o ∉ l then
        (.value true, { m with heap := m.heap.modifyObject o fun s => { s with prototype := p } })
      else (.value false, m) := by
  obtain ⟨fuel, rfl⟩ : ∃ n, fuel = n + 1 := ⟨fuel - 1, by omega⟩
  have hstart : execute E (fuel + 1) (Program.setPrototypeOf o p) m =
      changePrototype (handler fuel (respond E fuel)) fuel o s p m :=
    (execute_method E _ _ m).trans (respond_object E ho fuel)
  have hlength : l.length ≤ fuel := by omega
  have hwalk : (Program.chainAvoids o fuel p).run (handler fuel (respond E fuel)) m =
      (.value (decide (o ∉ l)), m) := execute_chainAvoids E hl hlength hlength o
  rw [hstart, changePrototype]
  by_cases hsame : p = s.prototype
  · rw [if_pos hsame, if_pos (.inl hsame), Heap.modifyObject_eq_self ho (by rw [hsame])]
    rfl
  rw [if_neg hsame]
  by_cases hext : s.extensible = true
  · rw [if_neg (by simp [hext])]
    change Run.bind _ _ m = _
    rw [Run.bind, hwalk]
    by_cases hmem : o ∈ l
    · have hfound : decide (o ∉ l) = false := by simp [hmem]
      rw [hfound, if_neg (by simp [hsame, hmem])]
      rfl
    · have hfree : decide (o ∉ l) = true := by simp [hmem]
      rw [hfree, if_pos (.inr ⟨hext, hmem⟩)]
      simp [Run.onObject, Run.tryHeap, Heap.cell, ho]
  · rw [if_pos (by simpa using hext), if_neg (by simp [hsame, hext])]
    rfl

end Machine

end Ecma
