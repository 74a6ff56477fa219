import Ecma.Proofs.Machine.Assignment
import Ecma.Proofs.Scope.Resolution
import Ecma.Scope.Global

/-!
# Global declarations

A variable or a function that is declared globally becomes a property of the global object, and
the global scope remembers its name. Asking whether it can be declared changes nothing, and **what
may be declared is declared**: the object is asked for a property, given the value once more by
assigning, and after the request was granted there is an own property that takes it without
running code. So the prototypes of the object do not matter.

All that happens comes to another state of the object and another list of names
(`Machine.redeclare`), which differ from those before in one property and one name. Deleting the
name undoes both if the property is configurable.
-/

namespace Ecma

/-! ## Names of variables -/

namespace GlobalScope

variable {g : GlobalScope} {name n : String}

theorem mem_varNames_declareVar :
    n ∈ (g.declareVar name).varNames ↔ n = name ∨ n ∈ g.varNames := by
  rw [declareVar]
  split
  · next hmem => exact ⟨.inr, fun h => h.elim (fun heq => heq ▸ hmem) id⟩
  · rw [List.mem_append, List.mem_singleton, or_comm]

theorem mem_varNames_forgetVar :
    n ∈ (g.forgetVar name).varNames ↔ n ≠ name ∧ n ∈ g.varNames := by
  rw [forgetVar, List.mem_filter, bne_iff_ne, and_comm]

theorem object_declareVar (g : GlobalScope) (name : String) :
    (g.declareVar name).object = g.object := by
  rw [declareVar]
  split <;> rfl

theorem bindings_declareVar (g : GlobalScope) (name : String) :
    (g.declareVar name).bindings = g.bindings := by
  rw [declareVar]
  split <;> rfl

end GlobalScope

/-- The names that a record remembers as variables. -/
def ScopeRecord.varNames : ScopeRecord → List String
  | global g => g.varNames
  | _ => []

/-- The names that an environment remembers as variables. -/
def Heap.varNames (h : Heap) (e : EnvironmentId) : List String :=
  (h.environments[e.index]?.map fun env => env.record.varNames).getD []

theorem Heap.exists_global {h : Heap} {e : EnvironmentId} {o : ObjectId}
    (ho : h.globalObject? e = some o) :
    ∃ g outer, h.environments[e.index]? = some ⟨.global g, outer⟩ ∧ g.object = o := by
  obtain ⟨⟨r, outer⟩, henv, hr⟩ := Option.bind_eq_some_iff.mp ho
  cases r with
  | global g => exact ⟨g, outer, henv, Option.some.inj hr⟩
  | _ => cases hr

/-! ## One object -/

namespace Object

variable {s s' : Object} {k : PropertyKey}

/-- The request by which a function is declared: a property that cannot be configured is only
asked for its value. -/
def functionRequest (v : Value) (deletable : Bool) : Option Property → Descriptor
  | some p => if p.configurable then .data v true true deletable else .ofValue v
  | none => .data v true true deletable

/-- Where the request is granted, there is a value afterwards. -/
theorem exists_own?_of_functionRequest {v : Value} {deletable : Bool} {old : Option Property}
    (hd : s.define k (functionRequest v deletable old) = (true, s')) :
    ∃ p, s'.own? k = some p ∧ p.isData = true := by
  have hrequest : functionRequest v deletable old = .data v true true deletable ∨
      functionRequest v deletable old = .ofValue v := by
    unfold functionRequest
    split
    · split
      · exact .inl rfl
      · exact .inr rfl
    · exact .inl rfl
  have hwellFormed : (functionRequest v deletable old).WellFormed := by
    rcases hrequest with hrequest | hrequest <;> rw [hrequest] <;>
      exact ⟨fun _ => rfl, nofun, nofun⟩
  obtain ⟨p, hp, hyields⟩ := yields_define hwellFormed (congrArg Prod.fst hd)
  rw [hd] at hp
  refine ⟨p, hp, hyields.isData.trans ?_⟩
  rcases hrequest with hrequest | hrequest <;> rw [hrequest] <;> rfl

/-- An extensible object takes a new property. -/
theorem define_new (hown : s.own? k = none) (hext : s.extensible = true) (v : Value)
    (deletable : Bool) :
    s.define k (.data v true true deletable) = (true, s.put k (.data v true true deletable)) := by
  rw [define, hown, Descriptor.validate, if_pos hext]
  rfl

/-- Where a function can be declared the request is granted, and there is then a property like
any other, which can be deleted if it is to be and the one before could be. -/
theorem define_functionRequest
    (hcan : ((s.own? k).elim s.extensible fun p =>
      p.configurable || (p.isData && p.isWritable && p.enumerable)) = true) (v : Value)
    (deletable : Bool) :
    s.define k (functionRequest v deletable (s.own? k)) = (true, s.put k
      (.data v true true (if (s.own? k).all Property.configurable then deletable else false))) := by
  rcases hown : s.own? k with _ | p <;> rw [hown] at hcan
  · exact define_new hown hcan v deletable
  · cases hconf : p.configurable with
    | true =>
      simp only [functionRequest, hconf, Option.all_some, if_true]
      rw [define, hown]
      obtain ⟨⟨u, w⟩ | ⟨get, set⟩, enumerable, configurable⟩ := p
      · obtain rfl : configurable = true := hconf
        rfl
      · obtain rfl : configurable = true := hconf
        rfl
    | false =>
      simp only [Option.elim_some, hconf, Bool.false_or, Bool.and_eq_true] at hcan
      obtain ⟨⟨-, hwritable⟩, henumerable⟩ := hcan
      simp only [functionRequest, hconf, Option.all_some, if_false, Bool.false_eq_true]
      rw [define_ofValue hown hwritable, henumerable, hconf]
      rfl

/-- Assigning the value that a property has changes nothing about it. -/
theorem store_put (s : Object) (k : PropertyKey) (v : Value) (enumerable configurable : Bool) :
    (s.put k (.data v true enumerable configurable)).store k v =
      (true, (s.put k (.data v true enumerable configurable)).put k
        (.data v true enumerable configurable)) := by
  have hown : (s.put k (.data v true enumerable configurable)).own? k =
      some (.data v true enumerable configurable) := by rw [own?_put, if_pos rfl]
  rw [store_eq, stored, hown]
  rfl

end Object

namespace Machine

variable {σ : Type} {m : Machine σ} {e : EnvironmentId} {g g' : GlobalScope} {s s' : Object}
  {name : String}

/-! ## Another state of a global scope -/

/-- The environment is a global one, over an object that is not an array. -/
structure GlobalAt (m : Machine σ) (e : EnvironmentId) (g : GlobalScope) (s : Object) : Prop where
  scope : ∃ outer, m.heap.environments[e.index]? = some ⟨.global g, outer⟩
  object : m.heap.objects[g.object.index]? = some (.object s)
  kind : s.kind ≠ .array

/-- The machine with another state of a global scope and of its object. -/
def redeclare (m : Machine σ) (e : EnvironmentId) (g : GlobalScope) (s : Object) : Machine σ :=
  { m with heap := (m.setObject g.object s).heap.setRecord e (.global g) }

/-- The machines differ at most in one property of one object, which is `p` in the second one, and
in one name that an environment may remember as a variable, which is one in the second if
`isVariable` says so. -/
structure Redeclares (m : Machine σ) (e : EnvironmentId) (o : ObjectId) (name : String)
    (p : Option Property) (isVariable : Bool) (m' : Machine σ) : Prop where
  property : m'.heap.own? o (.ofString name) = p
  otherProperties : ∀ q k, q ≠ o ∨ k ≠ .ofString name → m'.heap.own? q k = m.heap.own? q k
  remembered : name ∈ m'.heap.varNames e ↔ isVariable = true
  otherNames : ∀ e' n, e' ≠ e ∨ n ≠ name → (n ∈ m'.heap.varNames e' ↔ n ∈ m.heap.varNames e')
  bindings : ∀ e' n, m'.heap.binding? e' n = m.heap.binding? e' n
  graphs : m'.heap.graphs = m.heap.graphs
  host : m'.host = m.host

theorem getElem?_redeclare (i : Nat) :
    (m.redeclare e g s).heap.environments[i]? =
      if e.index = i then m.heap.environments[i]?.map fun env => { env with record := .global g }
      else m.heap.environments[i]? :=
  Heap.getElem?_setRecord _ e _ i

namespace GlobalAt

variable (h : m.GlobalAt e g s)
include h

theorem setObject (hkind : s'.kind = s.kind) : (m.setObject g.object s').GlobalAt e g s' where
  scope := h.scope
  object := getElem?_setObject h.object s'
  kind := hkind ▸ h.kind

theorem redeclare (hobject : g'.object = g.object) (hkind : s'.kind = s.kind) :
    (m.redeclare e g' s').GlobalAt e g' s' where
  scope := by
    obtain ⟨outer, henv⟩ := h.scope
    exact ⟨outer, by rw [getElem?_redeclare, if_pos rfl, henv]; rfl⟩
  object := by
    have hold : m.heap.objects[g'.object.index]? = some (.object s) := hobject ▸ h.object
    exact getElem?_setObject hold s'
  kind := hkind ▸ h.kind

theorem environment : ∃ outer, m.heap.environment e = .value ⟨.global g, outer⟩ := by
  obtain ⟨outer, henv⟩ := h.scope
  exact ⟨outer, by rw [Heap.environment, henv]⟩

theorem own?_redeclare (hobject : g'.object = g.object) (q : ObjectId) (k : PropertyKey) :
    (m.redeclare e g' s').heap.own? q k = if q = g.object then s'.own? k else m.heap.own? q k := by
  rw [← own?_setObject h.object, ← hobject]
  rfl

theorem varNames_eq : m.heap.varNames e = g.varNames := by
  obtain ⟨outer, henv⟩ := h.scope
  rw [Heap.varNames, henv]
  rfl

theorem varNames_redeclare (e' : EnvironmentId) :
    (m.redeclare e g' s').heap.varNames e' = if e' = e then g'.varNames else m.heap.varNames e' := by
  obtain ⟨outer, henv⟩ := h.scope
  rw [Heap.varNames, getElem?_redeclare]
  by_cases he : e' = e
  · rw [if_pos (congrArg EnvironmentId.index he).symm, if_pos he, he, henv]
    rfl
  · rw [if_neg fun heq => he (congrArg EnvironmentId.mk heq.symm), if_neg he]
    rfl

/-- The tables are not touched. -/
theorem binding?_redeclare (hbindings : g'.bindings = g.bindings) (e' : EnvironmentId)
    (n : String) : (m.redeclare e g' s').heap.binding? e' n = m.heap.binding? e' n := by
  obtain ⟨outer, henv⟩ := h.scope
  have htable : (m.redeclare e g' s').heap.table? e' = m.heap.table? e' := by
    rw [Heap.table?, getElem?_redeclare]
    split
    · next he =>
      rw [Heap.table?, ← he, henv]
      exact congrArg some hbindings
    · rfl
  rw [Heap.binding?, htable]
  rfl

/-- Another state of the object and other names, of which only one property and one name are
others, are a redeclaration. -/
theorem redeclares {isVariable : Bool} (hname : name ∈ g'.varNames ↔ isVariable = true)
    (hnames : ∀ n, n ≠ name → (n ∈ g'.varNames ↔ n ∈ g.varNames))
    (hobject : g'.object = g.object) (hbindings : g'.bindings = g.bindings)
    (hown : ∀ k, k ≠ .ofString name → s'.own? k = s.own? k) :
    m.Redeclares e g.object name (s'.own? (.ofString name)) isVariable (m.redeclare e g' s') where
  property := by rw [h.own?_redeclare hobject, if_pos rfl]
  otherProperties q k hne := by
    rw [h.own?_redeclare hobject]
    split
    · next hq => rw [hown k (hne.resolve_left fun hnot => hnot hq), hq, Heap.own?_eq h.object]
    · rfl
  remembered := by
    rw [h.varNames_redeclare, if_pos rfl]
    exact hname
  otherNames e' n hne := by
    rw [h.varNames_redeclare]
    split
    · next he => rw [hnames n (hne.resolve_left fun hnot => hnot he), he, h.varNames_eq]
    · rfl
  bindings := h.binding?_redeclare hbindings
  graphs := rfl
  host := rfl

/-! ## Asking -/

/-- Whether a function can be declared is up to the property that is there. -/
theorem execute_canDeclareFunction (E : Embedder σ) (fuel : Nat) (name : String) :
    execute E (fuel + 1) (Program.canDeclareFunction g name) m =
      (.value ((s.own? (.ofString name)).elim s.extensible fun p =>
        p.configurable || (p.isData && p.isWritable && p.enumerable)), m) := by
  rw [Program.canDeclareFunction, execute_bind (execute_getOwnProperty E h.object fuel _)]
  rcases s.own? (.ofString name) with _ | p
  · exact execute_isExtensible E h.object fuel
  · rfl

theorem execute_canDeclareVar (E : Embedder σ) (fuel : Nat) (name : String) :
    execute E (fuel + 1) (Program.canDeclareVar g name) m =
      (.value ((s.own? (.ofString name)).elim s.extensible fun _ => true), m) := by
  rw [Program.canDeclareVar, execute_bind (execute_getOwnProperty E h.object fuel _)]
  rcases s.own? (.ofString name) with _ | p
  · exact execute_isExtensible E h.object fuel
  · rfl

/-! ## Acting -/

/-- What is remembered of the names changes after the object has got another state. -/
theorem tryHeap_modifyGlobal {f : GlobalScope → GlobalScope} (hf : (f g).object = g.object)
    (s' : Object) :
    Run.tryHeap (fun h => do return ((), ← h.modifyGlobal e f)) (m.setObject g.object s') =
      (.value (), m.redeclare e (f g) s') := by
  obtain ⟨outer, henv⟩ := h.environment
  have henv : (m.setObject g.object s').heap.environment e = .value ⟨.global g, outer⟩ := henv
  simp only [Run.tryHeap, Heap.modifyGlobal, henv, Outcome.value_bind, Outcome.pure_eq,
    Machine.redeclare, hf]
  rfl

theorem execute_declareVar (E : Embedder σ) (fuel : Nat) (name : String) (s' : Object) :
    execute E fuel (Program.effect (.declareVar e name)) (m.setObject g.object s') =
      (.value (), m.redeclare e (g.declareVar name) s') :=
  (Program.run_effect _ _ _).trans (h.tryHeap_modifyGlobal (g.object_declareVar name) s')

theorem execute_forgetVar (E : Embedder σ) (fuel : Nat) (name : String) (s' : Object) :
    execute E fuel (Program.effect (.forgetVar e name)) (m.setObject g.object s') =
      (.value (), m.redeclare e (g.forgetVar name) s') :=
  (Program.run_effect _ _ _).trans (h.tryHeap_modifyGlobal rfl s')

end GlobalAt

theorem execute_bind_stopped {α β : Type} {E : Embedder σ} {fuel : Nat} {p : Program σ α}
    {m m' : Machine σ} {stop : Stop} (hp : execute E fuel p m = (.stopped stop, m'))
    (f : α → Program σ β) : execute E fuel (p >>= f) m = (.stopped stop, m') := by
  rw [execute_bind_eq, Run.bind, hp]

theorem execute_exhausted (E : Embedder σ) (r : Request) (m : Machine σ) :
    execute E 0 (Program.effect (.method r)) m = (.stopped .exhausted, m) :=
  execute_method E 0 r m

section

variable (E : Embedder σ) {o : ObjectId} {k : PropertyKey} {p : Property}
  (ho : m.heap.objects[o.index]? = some (.object s)) (hs : s.kind ≠ .array) (fuel : Nat)
include ho

/-- Assigning takes two levels of requests. -/
theorem execute_set_exhausted (v : Value) :
    execute E 1 (Program.set o k v false) m = (.stopped .exhausted, m) := by
  refine execute_bind_stopped ?_ _
  rw [execute_setFor E ho]
  exact execute_bind_stopped (execute_exhausted E _ m) _

include hs

/-- An own property that is a value decides alone what becomes of an assignment. -/
theorem execute_set_own (hp : s.own? k = some p) (hdata : p.isData = true) (v : Value) :
    execute E (fuel + 2) (Program.set o k v false) m =
      (.value (s.store k v).1, m.setObject o (s.store k v).2) := by
  have hset : execute E (fuel + 2) (Program.setFor o k v (.object o)) m =
      (.value (s.store k v).1, m.setObject o (s.store k v).2) := by
    rw [execute_setFor E ho, Program.lookup, execute_bind (execute_getOwnProperty E ho fuel k), hp]
    refine (execute_setThrough_data E ho hs fuel hdata k v).trans ?_
    split
    · rfl
    · next hw =>
      rw [Object.store, hp]
      dsimp only
      rw [if_neg hw, setObject_self ho]
  rw [execute_set E hset, Bool.and_false]
  rfl

theorem execute_definePropertyOrThrow_granted {d : Descriptor} (hd : s.define k d = (true, s')) :
    execute E (fuel + 1) (Program.definePropertyOrThrow o k d) m =
      (.value (), m.setObject o s') := by
  have hdefine := execute_define E ho fuel hs k d
  rw [hd] at hdefine
  exact execute_bind hdefine _

/-- A request that is refused is a failure and changes nothing. -/
theorem execute_definePropertyOrThrow_refused {d : Descriptor} (hd : (s.define k d).1 = false) :
    ∃ c, execute E (fuel + 1) (Program.definePropertyOrThrow o k d) m = (.raise c, m) := by
  have hdefine := execute_define E ho fuel hs k d
  rw [hd, Object.define_refused hd, setObject_self ho] at hdefine
  rw [Program.definePropertyOrThrow, execute_bind hdefine, if_neg Bool.false_ne_true,
    execute_bind (execute_getOwnProperty E ho fuel k)]
  rcases s.own? k with _ | p
  · exact ⟨_, rfl⟩
  · exact ⟨_, rfl⟩

end

namespace GlobalAt

variable (h : m.GlobalAt e g s) {v : Value} {deletable : Bool}
include h

/-- A function is declared if the request for it is granted. The property that this leaves takes
the value. -/
theorem execute_createGlobalFunction_granted (E : Embedder σ) (fuel : Nat) {s₁ : Object}
    (hd : s.define (.ofString name)
      (Object.functionRequest v deletable (s.own? (.ofString name))) = (true, s₁)) :
    execute E (fuel + 2) (Program.createGlobalFunction e g name v deletable) m =
      (.value (), m.redeclare e (g.declareVar name) (s₁.store (.ofString name) v).2) := by
  have hdefine := execute_definePropertyOrThrow_granted E h.object h.kind (fuel + 1) hd
  have hkind : s₁.kind = s.kind := by
    have halike := s.alikeBut_define (.ofString name)
      (Object.functionRequest v deletable (s.own? (.ofString name)))
    rw [hd] at halike
    exact halike.kind
  have hafter := h.setObject hkind
  obtain ⟨p, hp, hdata⟩ := Object.exists_own?_of_functionRequest hd
  have hset := execute_set_own E hafter.object hafter.kind fuel hp hdata v
  rw [setObject_setObject] at hset
  refine (execute_bind (execute_getOwnProperty E h.object (fuel + 1) _) _).trans ?_
  refine (execute_bind hdefine _).trans ((execute_bind hset _).trans ?_)
  exact h.execute_declareVar E (fuel + 2) name _

theorem execute_createGlobalFunction_refused (E : Embedder σ) (fuel : Nat)
    (hd : (s.define (.ofString name)
      (Object.functionRequest v deletable (s.own? (.ofString name)))).1 = false) :
    ∃ c, execute E (fuel + 1) (Program.createGlobalFunction e g name v deletable) m =
      (.raise c, m) := by
  obtain ⟨c, hrefused⟩ := execute_definePropertyOrThrow_refused E h.object h.kind fuel hd
  exact ⟨c, (execute_bind (execute_getOwnProperty E h.object fuel _) _).trans
    (execute_bind_raise hrefused _)⟩

/-- **A function that is not declared** leaves everything as it was. -/
theorem eq_of_createGlobalFunction_failure {E : Embedder σ} {fuel : Nat} {f : Failure}
    {m' : Machine σ}
    (hrun : execute E fuel (Program.createGlobalFunction e g name v deletable) m =
      (.failure f, m')) : m' = m := by
  -- without fuel for the two levels of requests the run is exhausted, which is no failure
  match fuel with
  | 0 => cases (execute_bind_stopped (execute_exhausted E _ m) _).symm.trans hrun
  | fuel + 1 =>
    rcases hd : s.define (.ofString name)
      (Object.functionRequest v deletable (s.own? (.ofString name))) with ⟨_ | _, s₁⟩
    · obtain ⟨c, hrefused⟩ := h.execute_createGlobalFunction_refused E fuel (congrArg Prod.fst hd)
      rw [hrefused] at hrun
      exact (Prod.mk.inj hrun).2.symm
    · match fuel with
      | 0 =>
        have hdefine := execute_definePropertyOrThrow_granted E h.object h.kind 0 hd
        have hset := execute_bind_stopped (execute_set_exhausted E (k := .ofString name)
          (getElem?_setObject h.object s₁) v) fun _ => Program.effect (.declareVar e name)
        cases ((execute_bind (execute_getOwnProperty E h.object 0 _) _).trans
          ((execute_bind hdefine _).trans hset)).symm.trans hrun
      | fuel + 1 =>
        rw [h.execute_createGlobalFunction_granted E fuel hd] at hrun
        cases hrun

/-- A variable that is new gets a property of its own. -/
theorem execute_createGlobalVar_new (E : Embedder σ) (fuel : Nat)
    (hown : s.own? (.ofString name) = none) (hext : s.extensible = true) {p : Property}
    (hp : p = .data .undefined true true deletable) :
    execute E (fuel + 2) (Program.createGlobalVar e g name deletable) m =
      (.value (), m.redeclare e (g.declareVar name)
        ((s.put (.ofString name) p).put (.ofString name) p)) := by
  have hdefine := Object.define_new hown hext .undefined deletable
  have hstore := s.store_put (.ofString name) .undefined true deletable
  rw [← hp] at hdefine hstore
  have hcreate := execute_definePropertyOrThrow_granted E h.object h.kind (fuel + 1) hdefine
  have hafter : (m.setObject g.object (s.put (.ofString name) p)).GlobalAt e g
      (s.put (.ofString name) p) := h.setObject rfl
  have hnew : (s.put (.ofString name) p).own? (.ofString name) = some p := by
    rw [Object.own?_put, if_pos rfl]
  have hset := execute_set_own E hafter.object hafter.kind fuel hnew (hp ▸ rfl) .undefined
  rw [hstore, setObject_setObject] at hset
  have hassign : execute E (fuel + 2) (Program.objectAssign g.objectScope name .undefined false)
      (m.setObject g.object (s.put (.ofString name) p)) =
      (.value (), m.setObject g.object ((s.put (.ofString name) p).put (.ofString name) p)) :=
    (execute_bind (execute_hasProperty_own E hafter.object fuel hnew) _).trans (execute_bind hset _)
  refine (execute_bind (execute_getOwnProperty E h.object (fuel + 1) _) _).trans ?_
  rw [hown]
  refine (execute_bind (execute_isExtensible E h.object (fuel + 1)) _).trans ?_
  rw [hext]
  refine (execute_bind hcreate _).trans ((execute_bind hassign _).trans ?_)
  exact h.execute_declareVar E (fuel + 2) name _

/-- A variable whose name is there already is only remembered. -/
theorem execute_createGlobalVar_old (E : Embedder σ) (fuel : Nat) {p : Property}
    (hown : s.own? (.ofString name) = some p) :
    execute E (fuel + 2) (Program.createGlobalVar e g name deletable) m =
      (.value (), m.redeclare e (g.declareVar name) s) := by
  have hdeclare := h.execute_declareVar E (fuel + 2) name s
  rw [setObject_self h.object] at hdeclare
  refine (execute_bind (execute_getOwnProperty E h.object (fuel + 1) _) _).trans ?_
  rw [hown]
  exact hdeclare

/-! ## Deleting -/

theorem execute_delete (E : Embedder σ) (fuel : Nat) (k : PropertyKey) :
    execute E (fuel + 1) (Program.delete g.object k) m =
      (.value (s.delete k).1, m.setObject g.object (s.delete k).2) :=
  ((execute_method E _ _ m).trans (respond_object E h.object fuel)).trans (onObject_eq h.object _)

/-- A name that no table has is deleted from the object. -/
theorem execute_deleteBinding_object (hlexical : m.heap.binding? e name = none) {p : Property}
    (hown : s.own? (.ofString name) = some p) (E : Embedder σ) (fuel : Nat) :
    execute E (fuel + 1) (Program.deleteBinding e name) m =
      execute E (fuel + 1) (do
        let deleted ← Program.delete g.object (.ofString name)
        if deleted then Program.effect (.forgetVar e name)
        return deleted) m := by
  obtain ⟨outer, hscope⟩ := h.scope
  obtain ⟨outer, henv⟩ := h.environment
  have hcontains : g.bindings.contains name = false := by
    rw [Heap.binding?_eq hscope rfl] at hlexical
    rw [Dictionary.contains, hlexical]
    rfl
  refine (execute_bind (execute_environment E (fuel + 1) henv) _).trans ?_
  dsimp only
  rw [hcontains]
  refine (execute_bind (execute_getOwnProperty E h.object fuel _) _).trans ?_
  rw [hown]

/-- **Deleting a name** that only the object has removes the property and forgets the name, if the
property is configurable, and otherwise changes nothing. -/
theorem execute_deleteBinding (hlexical : m.heap.binding? e name = none) {p : Property}
    (hown : s.own? (.ofString name) = some p) :
    ∃ m', (∀ (E : Embedder σ) (fuel : Nat),
        execute E (fuel + 1) (Program.deleteBinding e name) m = (.value p.configurable, m')) ∧
      (p.configurable = true → m.Redeclares e g.object name none false m') ∧
      (p.configurable = false → m' = m) := by
  have hglobal := h.execute_deleteBinding_object hlexical hown
  cases hconf : p.configurable with
  | true =>
    have hgone : (s.delete (.ofString name)).1 = true := by
      rw [Object.delete, hown]
      exact congrArg Prod.fst (if_pos hconf)
    have hnone : (s.delete (.ofString name)).2.own? (.ofString name) = none := by
      rw [Object.own?_delete, if_pos ⟨rfl, hgone⟩]
    have hforgotten : name ∈ (g.forgetVar name).varNames ↔ false = true :=
      iff_of_false (fun hmem => (GlobalScope.mem_varNames_forgetVar.mp hmem).1 rfl)
        Bool.false_ne_true
    have hredeclares := h.redeclares hforgotten
      (fun n hn => GlobalScope.mem_varNames_forgetVar.trans (and_iff_right hn)) rfl rfl
      fun k hk => (s.own?_delete (.ofString name) k).trans (if_neg fun hnot => hk hnot.1)
    rw [hnone] at hredeclares
    refine ⟨_, fun E fuel => ?_, fun _ => hredeclares,
      fun hnot => absurd hnot.symm Bool.false_ne_true⟩
    have hrun := h.execute_delete E fuel (.ofString name)
    rw [hgone] at hrun
    refine (hglobal E fuel).trans ((execute_bind hrun _).trans ?_)
    exact execute_bind (h.execute_forgetVar E (fuel + 1) name _) _
  | false =>
    have hdelete : s.delete (.ofString name) = (false, s) := by
      rw [Object.delete, hown]
      exact if_neg (Bool.eq_false_iff.mp hconf)
    refine ⟨m, fun E fuel => ?_, fun hnot => absurd hnot Bool.false_ne_true, fun _ => rfl⟩
    have hrun := h.execute_delete E fuel (.ofString name)
    rw [hdelete, setObject_self h.object] at hrun
    exact (hglobal E fuel).trans (execute_bind hrun _)

end GlobalAt

/-! ## Declarations -/

/-- **A declaration.** It succeeds, and then the global object has the property `p` and the name is
remembered; nothing else changes. Unless a table has the name, deleting it afterwards answers
whether the property is configurable: if it is, the property and the name are gone and nothing else
is, and if it is not, nothing changes. -/
def Declares (m : Machine σ) (e : EnvironmentId) (g : GlobalScope) (name : String) (p : Property)
    (declare : Program σ Unit) : Prop :=
  ∃ m', (∀ (E : Embedder σ) (fuel : Nat), execute E (fuel + 2) declare m = (.value (), m')) ∧
    m.Redeclares e g.object name (some p) true m' ∧
    (m.heap.binding? e name = none → ∃ m'',
      (∀ (E : Embedder σ) (fuel : Nat),
        execute E (fuel + 1) (Program.deleteBinding e name) m' = (.value p.configurable, m'')) ∧
      (p.configurable = true → m'.Redeclares e g.object name none false m'') ∧
      (p.configurable = false → m'' = m'))

/-- A program that leaves a property and a name behind makes a declaration. -/
theorem GlobalAt.declares (h : m.GlobalAt e g s) {declare : Program σ Unit} {p : Property}
    (hrun : ∀ (E : Embedder σ) (fuel : Nat),
      execute E (fuel + 2) declare m = (.value (), m.redeclare e (g.declareVar name) s'))
    (hp : s'.own? (.ofString name) = some p) (hkind : s'.kind = s.kind)
    (hown : ∀ k, k ≠ .ofString name → s'.own? k = s.own? k) : m.Declares e g name p declare := by
  have hobject := g.object_declareVar name
  have hremembered : name ∈ (g.declareVar name).varNames ↔ true = true :=
    iff_of_true (GlobalScope.mem_varNames_declareVar.mpr (.inl rfl)) rfl
  have hredeclares := h.redeclares hremembered
    (fun n hn => GlobalScope.mem_varNames_declareVar.trans (or_iff_right hn)) hobject
    (g.bindings_declareVar name) hown
  rw [hp] at hredeclares
  refine ⟨_, hrun, hredeclares, fun hlexical => ?_⟩
  rw [← hobject]
  exact (h.redeclare hobject hkind).execute_deleteBinding
    ((hredeclares.bindings e name).trans hlexical) hp

/-- **Global declarations.** Take a global scope over an object that is not an array.

Asking whether a function can be declared changes nothing. If it can, declaring it with any value
succeeds and leaves a writable and enumerable property with the value; this is configurable if it
is to be deletable and the property before was configurable or absent.

The same holds of a variable, except that a property which is there stays as it is, and that a new
one is undefined and configurable if it is to be deletable.

If declaring a function fails, nothing changes. -/
theorem global_declarations (h : m.GlobalAt e g s) (name : String) :
    (∃ can, (∀ (E : Embedder σ) (fuel : Nat),
        execute E (fuel + 1) (Program.canDeclareFunction g name) m = (.value can, m)) ∧
      (can = true → ∀ (v : Value) (deletable : Bool), m.Declares e g name
        (.data v true true
          (if (s.own? (.ofString name)).all Property.configurable then deletable else false))
        (Program.createGlobalFunction e g name v deletable))) ∧
    (∃ can, (∀ (E : Embedder σ) (fuel : Nat),
        execute E (fuel + 1) (Program.canDeclareVar g name) m = (.value can, m)) ∧
      (can = true → ∀ deletable : Bool, m.Declares e g name
        ((s.own? (.ofString name)).getD (.data .undefined true true deletable))
        (Program.createGlobalVar e g name deletable))) ∧
    ∀ (E : Embedder σ) (fuel : Nat) (v : Value) (deletable : Bool) (f : Failure) (m' : Machine σ),
      execute E fuel (Program.createGlobalFunction e g name v deletable) m = (.failure f, m') →
        m' = m := by
  -- what is put under the key is there, and nothing else is seen of it
  have hput (p : Property) : ((s.put (.ofString name) p).put (.ofString name) p).own?
      (.ofString name) = some p := by rw [Object.own?_put, if_pos rfl]
  have hrest (p : Property) (k : PropertyKey) (hk : k ≠ .ofString name) :
      ((s.put (.ofString name) p).put (.ofString name) p).own? k = s.own? k := by
    rw [Object.own?_put, if_neg hk, Object.own?_put, if_neg hk]
  refine ⟨⟨_, fun E fuel => h.execute_canDeclareFunction E fuel name, fun hcan v deletable => ?_⟩,
    ⟨_, fun E fuel => h.execute_canDeclareVar E fuel name, fun hcan deletable => ?_⟩,
    fun E fuel v deletable f m' => h.eq_of_createGlobalFunction_failure⟩
  · refine h.declares (fun E fuel => ?_) (hput _) rfl (hrest _)
    have hdefine := Object.define_functionRequest hcan v deletable
    rw [h.execute_createGlobalFunction_granted E fuel hdefine, Object.store_put]
  · rcases hown : s.own? (.ofString name) with _ | p
    · rw [hown] at hcan
      exact h.declares (fun E fuel => h.execute_createGlobalVar_new E fuel hown hcan rfl) (hput _)
        rfl (hrest _)
    · exact h.declares (fun E fuel => h.execute_createGlobalVar_old E fuel hown) hown rfl
        fun _ _ => rfl

/-- The global object has a configurable accessor `a` and a value `f` that cannot be configured;
there is no `v`. -/
theorem global_declarations_over_old_properties :
    let p : Program Unit EnvironmentId := do
      let o ← Program.allocate (.ordinary none "Object" none false)
      let f ← Program.allocate (.function "f" 0 ⟨0⟩ none)
      let _ ← Program.defineOwnProperty o (.string "a")
        { get := some (.object f), configurable := some true }
      let _ ← Program.defineOwnProperty o (.string "f") (.data .null true true false)
      Program.newGlobal o o
    let m := (execute default 2 p (initial {} ())).2
    ∃ g s, m.GlobalAt ⟨0⟩ g s ∧
      m.Declares ⟨0⟩ g "a" (.data .null true true true)
        (Program.createGlobalFunction ⟨0⟩ g "a" .null true) ∧
      m.Declares ⟨0⟩ g "f" (.data .undefined true true false)
        (Program.createGlobalFunction ⟨0⟩ g "f" .undefined true) ∧
      m.Declares ⟨0⟩ g "v" (.data .undefined true true true)
        (Program.createGlobalVar ⟨0⟩ g "v" true) := by
  intro p m
  have hobject : holdsObject m.heap ⟨11⟩ (fun s => !s.isArray && s.extensible &&
      s.own? (.ofString "a") = some (.accessor (some ⟨12⟩) none false true) &&
      s.own? (.ofString "f") = some (.data .null true true false) &&
      s.own? (.ofString "v") = none) := by decide +kernel
  obtain ⟨g, outer, henv, hg⟩ :=
    Heap.exists_global (show m.heap.globalObject? ⟨0⟩ = some ⟨11⟩ by decide +kernel)
  obtain ⟨s, hcell, hcheck⟩ := exists_of_holdsObject hobject
  simp only [Bool.and_eq_true, decide_eq_true_eq] at hcheck
  obtain ⟨⟨⟨⟨hkind, hext⟩, ha⟩, hf⟩, hv⟩ := hcheck
  have h : m.GlobalAt ⟨0⟩ g s := by
    refine ⟨⟨outer, henv⟩, ?_, by simpa [Object.isArray] using hkind⟩
    rw [hg]
    exact getElem?_of_cell hcell
  refine ⟨g, s, h, ?_, ?_, ?_⟩
  · obtain ⟨⟨can, hask, hdeclares⟩, -, -⟩ := global_declarations h "a"
    have hcan := (hask default 0).symm.trans (h.execute_canDeclareFunction default 0 "a")
    rw [ha] at hcan hdeclares
    exact hdeclares (Outcome.value.inj (Prod.mk.inj hcan).1) .null true
  · obtain ⟨⟨can, hask, hdeclares⟩, -, -⟩ := global_declarations h "f"
    have hcan := (hask default 0).symm.trans (h.execute_canDeclareFunction default 0 "f")
    rw [hf] at hcan hdeclares
    exact hdeclares (Outcome.value.inj (Prod.mk.inj hcan).1) .undefined true
  · obtain ⟨-, ⟨can, hask, hdeclares⟩, -⟩ := global_declarations h "v"
    have hcan := (hask default 0).symm.trans (h.execute_canDeclareVar default 0 "v")
    rw [hv, Option.elim_none, hext] at hcan
    rw [hv] at hdeclares
    exact hdeclares (Outcome.value.inj (Prod.mk.inj hcan).1) true

end Machine

end Ecma
