import Ecma.Proofs.Machine.ChainWalk
import Ecma.Proofs.Scope.ImportAlias
import Ecma.Scope.Reference

/-!
# Names along a scope chain

Resolving a name walks outward from an environment. Where the chain has no objects in the place
of tables, and the objects of global environments have chains of prototypes that end, the walk
runs no code. It finds the **innermost** environment that has the name, or that there is none
(`execute_resolve`).

Assigning changes one binding of one table. So nothing else is seen to change, no name is
resolved in another way than before, and every scope that resolves to the binding reads the
new value (`names_resolve_innermost`).
-/

namespace Ecma

/-- The object of a global record. -/
def ScopeRecord.globalObject? : ScopeRecord → Option ObjectId
  | global g => some g.object
  | _ => none

namespace ScopeRecord

theorem globalObject?_setBindings (r : ScopeRecord) (table : Bindings) :
    (r.setBindings table).globalObject? = r.globalObject? := by
  cases r <;> rfl

theorem setBindings_self {r : ScopeRecord} {table : Bindings} (h : r.bindings? = some table) :
    r.setBindings table = r := by
  cases r with
  | object s => rfl
  | _ =>
    obtain rfl := Option.some.inj h
    rfl

end ScopeRecord

namespace Heap

variable {h : Heap} {e : EnvironmentId} {name : String}

/-! ## Scope chains -/

/-- The object of a global environment. -/
def globalObject? (h : Heap) (e : EnvironmentId) : Option ObjectId :=
  h.environments[e.index]?.bind fun env => env.record.globalObject?

/-- An environment is inside another one, or outermost. -/
def Encloses (h : Heap) (e : EnvironmentId) (outer : Option EnvironmentId) : Prop :=
  ∃ r, h.environments[e.index]? = some ⟨r, outer⟩

theorem encloses_iff {outer : Option EnvironmentId} :
    h.Encloses e outer ↔ h.environments[e.index]?.map Environment.outer = some outer := by
  rw [Encloses, Option.map_eq_some_iff]
  constructor
  · rintro ⟨r, hr⟩
    exact ⟨_, hr, rfl⟩
  · rintro ⟨env, henv, rfl⟩
    exact ⟨env.record, henv⟩

instance (h : Heap) (e : EnvironmentId) (outer : Option EnvironmentId) :
    Decidable (h.Encloses e outer) :=
  decidable_of_iff _ encloses_iff.symm

/-- To look for a name in the environment runs no code: it has a table, and the chain of its
object ends if it is a global one. -/
structure Settled (h : Heap) (e : EnvironmentId) : Prop where
  table : (h.table? e).isSome
  chain : ∀ o ∈ h.globalObject? e, ∃ l, h.Chain (some o) l

/-- The scope chain from an environment outward ends, and these are the environments on it. -/
structure ScopeChain (h : Heap) (e : EnvironmentId) (l : List EnvironmentId) : Prop where
  trail : Trail h.Encloses (some e) l
  settled : ∀ e' ∈ l, h.Settled e'

/-- The environment has the name: in its table, or, if it is a global one, as a property of its
object or of one that this inherits from. -/
def HasName (h : Heap) (e : EnvironmentId) (name : String) : Prop :=
  (h.binding? e name).isSome ∨ ∃ o l, h.globalObject? e = some o ∧ h.Chain (some o) l ∧
    (h.nearest? (.ofString name) l).isSome

/-- The first environment on the way outward that has the name. -/
inductive Innermost (h : Heap) (name : String) : List EnvironmentId → EnvironmentId → Prop
  | here {e : EnvironmentId} (he : h.HasName e name) (l : List EnvironmentId) :
      Innermost h name (e :: l) e
  | outward {e base : EnvironmentId} {l : List EnvironmentId} (he : ¬ h.HasName e name)
      (hl : Innermost h name l base) : Innermost h name (e :: l) base

theorem Innermost.unique {l : List EnvironmentId} {base base' : EnvironmentId}
    (hl : h.Innermost name l base) (hl' : h.Innermost name l base') : base = base' := by
  induction hl with
  | here he l =>
    cases hl' with
    | here _ _ => rfl
    | outward hnot _ => exact absurd he hnot
  | outward hnot _ ih =>
    cases hl' with
    | here he _ => exact absurd he hnot
    | outward _ hl' => exact ih hl'

theorem Innermost.not_forall_not {l : List EnvironmentId} {base : EnvironmentId}
    (hl : h.Innermost name l base) : ¬ ∀ e ∈ l, ¬ h.HasName e name := by
  induction hl with
  | here he l => exact fun hnone => hnone _ List.mem_cons_self he
  | outward _ _ ih => exact fun hnone => ih fun e he => hnone e (List.mem_cons_of_mem _ he)

theorem singleLinked_encloses (h : Heap) : SingleLinked h.Encloses := by
  rintro e _ _ ⟨r, hr⟩ ⟨r', hr'⟩
  exact (Environment.mk.inj (Option.some.inj (hr.symm.trans hr'))).2

/-- A scope chain is no longer than there are environments. -/
theorem ScopeChain.length_le {l : List EnvironmentId} (hl : h.ScopeChain e l) :
    l.length ≤ h.environments.size := by
  refine hl.trail.length_le_of_numbered h.singleLinked_encloses EnvironmentId.mk ?_
  rintro e outer ⟨r, hr⟩
  exact ⟨e.index, (Array.getElem?_eq_some_iff.mp hr).1, rfl⟩

theorem binding?_eq {env : Environment} {table : Bindings}
    (henv : h.environments[e.index]? = some env) (ht : env.record.bindings? = some table)
    (name : String) : h.binding? e name = table.get? name := by
  rw [binding?, table?, henv, Option.bind_some, ht, Option.bind_some]

theorem Settled.exists_table (he : h.Settled e) : ∃ env table,
    h.environments[e.index]? = some env ∧ env.record.bindings? = some table ∧
      ∀ name, h.binding? e name = table.get? name := by
  obtain ⟨table, ht⟩ := Option.isSome_iff_exists.mp he.table
  obtain ⟨env, henv, hr⟩ := Option.bind_eq_some_iff.mp ht
  exact ⟨env, table, henv, hr, binding?_eq henv hr⟩

/-- What a global environment has, the chain of its object being known. -/
theorem hasName_global {o : ObjectId} (ho : h.globalObject? e = some o) {l : List ObjectId}
    (hl : h.Chain (some o) l) :
    h.HasName e name ↔ (h.binding? e name).isSome ∨ (h.nearest? (.ofString name) l).isSome := by
  refine or_congr_right ⟨?_, fun hnear => ⟨o, l, ho, hl, hnear⟩⟩
  rintro ⟨o', l', ho', hl', hnear⟩
  obtain rfl := Option.some.inj (ho.symm.trans ho')
  rwa [hl'.unique h.singleLinked_inherits hl]

/-! ## Heaps with the same names -/

/-- The same environments have the same names in both heaps. -/
structure SameNames (h h' : Heap) : Prop where
  objects : h'.objects = h.objects
  encloses : ∀ e outer, h.Encloses e outer → h'.Encloses e outer
  table : ∀ e, (h'.table? e).isSome = (h.table? e).isSome
  binding : ∀ e name, (h'.binding? e name).isSome = (h.binding? e name).isSome
  globalObject : ∀ e, h'.globalObject? e = h.globalObject? e

section

variable {h' : Heap} (hsame : h.SameNames h')
include hsame

theorem SameNames.chain {start : Option ObjectId} {l : List ObjectId} :
    h'.Chain start l ↔ h.Chain start l := by
  have hinherits : h'.Inherits = h.Inherits := by
    funext o p
    rw [Inherits, Inherits, hsame.objects]
  rw [Chain, Chain, hinherits]

theorem SameNames.hasName : h'.HasName e name ↔ h.HasName e name := by
  have hnearest : ∀ k l, h'.nearest? k l = h.nearest? k l := by
    intro k l
    simp only [nearest?, own?, hsame.objects]
  simp only [HasName, hsame.binding, hsame.globalObject, hsame.chain, hnearest]

theorem SameNames.innermost {l : List EnvironmentId} {base : EnvironmentId}
    (hl : h.Innermost name l base) : h'.Innermost name l base := by
  induction hl with
  | here he l => exact .here (hsame.hasName.mpr he) l
  | outward hnot _ ih => exact .outward (fun he => hnot (hsame.hasName.mp he)) ih

theorem SameNames.scopeChain {l : List EnvironmentId} (hl : h.ScopeChain e l) :
    h'.ScopeChain e l where
  trail := hl.trail.frame fun e _ outer => hsame.encloses e outer
  settled e' he' := by
    refine ⟨(hsame.table e').trans (hl.settled e' he').table, fun o ho => ?_⟩
    obtain ⟨l, hl⟩ := (hl.settled e' he').chain o ((hsame.globalObject e').symm.trans ho)
    exact ⟨l, hsame.chain.mpr hl⟩

end

/-! ## Another table -/

section

variable {env : Environment} {table table' : Bindings}
  (henv : h.environments[e.index]? = some env) (ht : env.record.bindings? = some table)

theorem getElem?_setRecord (h : Heap) (e : EnvironmentId) (r : ScopeRecord) (i : Nat) :
    (h.setRecord e r).environments[i]? =
      if e.index = i then h.environments[i]?.map fun env => { env with record := r }
      else h.environments[i]? := by
  rw [setRecord, Array.getElem?_modify]

include henv in
/-- A record that is the same changes nothing. -/
theorem setRecord_self : h.setRecord e env.record = h := by
  have henvironments : (h.setRecord e env.record).environments = h.environments := by
    refine Array.ext_getElem? fun i => ?_
    rw [getElem?_setRecord]
    split
    · next hi =>
      rw [← hi, henv]
      rfl
    · rfl
  exact congrArg (fun environments => { h with environments := environments }) henvironments

include henv ht

theorem table?_setBindings (e' : EnvironmentId) :
    (h.setRecord e (env.record.setBindings table')).table? e' =
      if e' = e then some table' else h.table? e' := by
  have hnew := env.record.bindings?_setBindings ht table'
  rw [table?, table?, getElem?_setRecord]
  by_cases hi : e' = e
  · rw [if_pos (congrArg EnvironmentId.index hi).symm, if_pos hi, hi, henv]
    exact hnew
  · rw [if_neg fun heq => hi (congrArg EnvironmentId.mk heq.symm), if_neg hi]

theorem binding?_setBindings (e' : EnvironmentId) (name : String) :
    (h.setRecord e (env.record.setBindings table')).binding? e' name =
      if e' = e then table'.get? name else h.binding? e' name := by
  rw [binding?, table?_setBindings henv ht]
  split <;> rfl

/-- A table with the same names leaves every environment with the same names. -/
theorem sameNames_setBindings
    (hnames : ∀ name, (table'.get? name).isSome = (table.get? name).isSome) :
    h.SameNames (h.setRecord e (env.record.setBindings table')) where
  objects := rfl
  encloses e' outer := by
    rintro ⟨r, hr⟩
    rw [Encloses, getElem?_setRecord]
    split
    · rw [hr]
      exact ⟨_, rfl⟩
    · exact ⟨r, hr⟩
  table e' := by
    rw [table?_setBindings henv ht]
    split
    · next he =>
      rw [he, table?, henv, Option.bind_some, ht]
      rfl
    · rfl
  binding e' name := by
    rw [binding?_setBindings henv ht]
    split
    · next he => rw [he, hnames, binding?_eq henv ht]
    · rfl
  globalObject e' := by
    rw [globalObject?, globalObject?, getElem?_setRecord]
    split
    · next he =>
      rw [← he, henv]
      exact env.record.globalObject?_setBindings table'
    · rfl

end

end Heap

namespace Machine

variable {σ : Type} (E : Embedder σ) {fuel : Nat} {m : Machine σ} {e : EnvironmentId}
  {name : String}

/-! ## Looking a name up -/

theorem execute_objectHas {s : ObjectScope} (hs : s.isWith = false) {l : List ObjectId}
    (hl : m.heap.Chain (some s.object) l) (hfuel : m.heap.objects.size < fuel) (name : String) :
    execute E fuel (Program.objectHas s name) m =
      (.value (m.heap.nearest? (.ofString name) l).isSome, m) := by
  have hlength : l.length < fuel := Nat.lt_of_le_of_lt hl.length_le_size hfuel
  rw [Program.objectHas, execute_bind (execute_hasProperty_nearest E hl hlength _), hs]
  cases (m.heap.nearest? (.ofString name) l).isSome <;> rfl

/-- One environment is asked for a name. -/
theorem execute_hasBinding (he : m.heap.Settled e) (hfuel : m.heap.objects.size < fuel)
    (name : String) : ∃ found, execute E fuel (Program.hasBinding e name) m = (.value found, m) ∧
      (found = true ↔ m.heap.HasName e name) := by
  obtain ⟨⟨r, outer⟩, table, hget, ht, hbinding⟩ := he.exists_table
  have henv : m.heap.environment e = .value ⟨r, outer⟩ := by rw [Heap.environment, hget]
  have hglobal : m.heap.globalObject? e = r.globalObject? := by
    rw [Heap.globalObject?, hget, Option.bind_some]
  -- without a global object it is up to the table
  have htable : r.globalObject? = none →
      (table.contains name = true ↔ m.heap.HasName e name) := by
    intro hnone
    rw [Heap.HasName, hbinding, hglobal, hnone]
    exact (or_iff_left (by rintro ⟨_, _, ⟨⟩, _⟩)).symm
  rw [Program.hasBinding, execute_bind (execute_environment E fuel henv)]
  rcases r with t | s | f | g | ⟨t, graph⟩
  · obtain rfl : t = table := Option.some.inj ht
    exact ⟨_, rfl, htable rfl⟩
  · cases ht
  · obtain rfl : f.bindings = table := Option.some.inj ht
    exact ⟨_, rfl, htable rfl⟩
  · obtain rfl : g.bindings = table := Option.some.inj ht
    obtain ⟨l, hl⟩ := he.chain g.object hglobal
    rw [Heap.hasName_global hglobal hl, hbinding]
    dsimp only
    rcases hcontains : g.bindings.contains name with _ | _
    · have habsent : ¬ (g.bindings.get? name).isSome = true := Bool.eq_false_iff.mp hcontains
      exact ⟨_, execute_objectHas E (s := g.objectScope) rfl hl hfuel name,
        (or_iff_right habsent).symm⟩
    · exact ⟨true, rfl, iff_of_true rfl (.inl hcontains)⟩
  · obtain rfl : t = table := Option.some.inj ht
    exact ⟨_, rfl, htable rfl⟩

/-- The walk outward ends at the innermost environment that has the name, or comes to the end
of the chain. -/
theorem execute_resolveWithin {start : Option EnvironmentId} {l : List EnvironmentId}
    (hl : Trail m.heap.Encloses start l) (hsettled : ∀ e ∈ l, m.heap.Settled e)
    (hfuel : m.heap.objects.size < fuel) (name : String) (strict : Bool) {links : Nat}
    (hlinks : l.length ≤ links) :
    (∃ base, m.heap.Innermost name l base ∧
        execute E fuel (Program.resolveWithin name strict links start) m =
          (.value (.resolved base name strict), m)) ∨
      (∀ e ∈ l, ¬ m.heap.HasName e name) ∧
        execute E fuel (Program.resolveWithin name strict links start) m =
          (.value (.unresolvable name strict), m) := by
  induction hl generalizing links with
  | nil =>
    refine .inr ⟨nofun, ?_⟩
    cases links <;> rfl
  | @cons e outer l he hl ih =>
    rw [List.length_cons] at hlinks
    obtain ⟨links, rfl⟩ : ∃ n, links = n + 1 := ⟨links - 1, by omega⟩
    obtain ⟨r, henv⟩ := he
    have henv : m.heap.environment e = .value ⟨r, outer⟩ := by rw [Heap.environment, henv]
    obtain ⟨found, hfound, hiff⟩ :=
      execute_hasBinding E (hsettled e List.mem_cons_self) hfuel name
    rw [Program.resolveWithin, execute_bind hfound]
    cases found with
    | true => exact .inl ⟨e, .here (hiff.mp rfl) l, rfl⟩
    | false =>
      have hnot : ¬ m.heap.HasName e name := fun hname => Bool.false_ne_true (hiff.mpr hname)
      have hnext : execute E fuel (do
          Program.resolveWithin name strict links (← Program.environment e).outer) m =
          execute E fuel (Program.resolveWithin name strict links outer) m :=
        execute_bind (execute_environment E fuel henv) _
      rw [if_neg Bool.false_ne_true, hnext]
      obtain ⟨base, hbase, hrun⟩ | ⟨hnone, hrun⟩ :=
        ih (fun e he => hsettled e (List.mem_cons_of_mem _ he)) (Nat.le_of_succ_le_succ hlinks)
      · exact .inl ⟨base, .outward hnot hbase, hrun⟩
      · exact .inr ⟨List.forall_mem_cons.mpr ⟨hnot, hnone⟩, hrun⟩

/-- **Looking up.** A name resolves to the innermost environment that has it, if any does. -/
theorem execute_resolve {l : List EnvironmentId} (hl : m.heap.ScopeChain e l)
    (hfuel : m.heap.objects.size < fuel) (name : String) (strict : Bool) :
    (∃ base, m.heap.Innermost name l base ∧
        execute E fuel (Program.resolve e name strict) m =
          (.value (.resolved base name strict), m)) ∨
      (∀ e ∈ l, ¬ m.heap.HasName e name) ∧
        execute E fuel (Program.resolve e name strict) m =
          (.value (.unresolvable name strict), m) := by
  rw [Program.resolve, execute_bind (execute_heap E fuel m)]
  exact execute_resolveWithin E hl.trail hl.settled hfuel name strict hl.length_le

/-- A binding with a value is read in every kind of environment. -/
theorem execute_getBindingValue_value {b : Binding} (hb : m.heap.binding? e name = some b)
    {v : Value} (hv : b.slot = .value v) (strict : Bool) :
    execute E fuel (Program.getBindingValue e name strict) m = (.value v, m) := by
  obtain ⟨⟨r, outer⟩, table, hget, ht, hget?⟩ := Heap.binding?_eq_some.mp hb
  have henv : m.heap.environment e = .value ⟨r, outer⟩ := by rw [Heap.environment, hget]
  have hread : table.read name = .value v := by simp only [Bindings.read, hget?, hv]
  have hvalue : execute E fuel (Program.ofOutcome (table.read name)) m = (.value v, m) := by
    rw [execute_ofOutcome, hread]
  rw [Program.getBindingValue, execute_bind (execute_environment E fuel henv)]
  rcases r with t | s | f | g | ⟨t, graph⟩
  · obtain rfl : t = table := Option.some.inj ht
    exact hvalue
  · cases ht
  · obtain rfl : f.bindings = table := Option.some.inj ht
    exact hvalue
  · obtain rfl : g.bindings = table := Option.some.inj ht
    have hcontains : g.bindings.contains name = true := Option.isSome_of_eq_some hget?
    dsimp only
    rw [if_pos hcontains, hvalue]
  · -- a module follows imports, but this binding is none
    have hlocal : ∀ module target, b.slot ≠ .imported module target := by simp [hv]
    obtain ⟨table', ht', hlast⟩ := Heap.readModule_local ⟨t, outer, hget⟩ hb hlocal
    rw [Heap.table?, hget, Option.bind_some] at ht'
    obtain rfl := Option.some.inj (ht.symm.trans ht')
    dsimp only
    rw [execute_bind (execute_heap E fuel m), hlast, hvalue]

/-- A name that resolves to a binding with a value is read there. -/
theorem execute_getValue_innermost {l : List EnvironmentId} {base : EnvironmentId}
    (hl : m.heap.ScopeChain e l) (hbase : m.heap.Innermost name l base)
    (hfuel : m.heap.objects.size < fuel) {b : Binding} (hb : m.heap.binding? base name = some b)
    {v : Value} (hv : b.slot = .value v) (strict : Bool) :
    execute E fuel (do Program.getValue (← Program.resolve e name strict)) m = (.value v, m) := by
  obtain ⟨base', hbase', hrun⟩ | ⟨hnone, -⟩ := execute_resolve E hl hfuel name strict
  · obtain rfl := hbase.unique hbase'
    rw [execute_bind hrun]
    exact execute_getBindingValue_value E hb hv strict
  · exact absurd hnone hbase.not_forall_not

/-! ## Assigning a name -/

/-- The machines differ in one binding at most, which is `b` in the second one. -/
structure Rebinds (m : Machine σ) (base : EnvironmentId) (name : String) (b : Binding)
    (m' : Machine σ) : Prop where
  binding : m'.heap.binding? base name = some b
  others : ∀ e n, e ≠ base ∨ n ≠ name → m'.heap.binding? e n = m.heap.binding? e n
  objects : m'.heap.objects = m.heap.objects
  graphs : m'.heap.graphs = m.heap.graphs
  host : m'.host = m.host

/-- A binding that is put into the table of an environment. -/
theorem rebinds_insert {base : EnvironmentId} {env : Environment} {table : Bindings}
    (henv : m.heap.environments[base.index]? = some env) (ht : env.record.bindings? = some table)
    (name : String) (b : Binding) :
    m.Rebinds base name b
      { m with heap := m.heap.setRecord base (env.record.setBindings (table.insert name b)) } where
  binding := by
    rw [Heap.binding?_setBindings henv ht, if_pos rfl, Dictionary.get?_insert, if_pos rfl]
  others e n hne := by
    rw [Heap.binding?_setBindings henv ht]
    split
    · next he =>
      rw [Dictionary.get?_insert, if_neg (hne.resolve_left fun hnot => hnot he), he,
        Heap.binding?_eq henv ht]
    · rfl
  objects := rfl
  graphs := rfl
  host := rfl

/-- What assigning a binding does, by its state. -/
theorem execute_putValue {base : EnvironmentId} {b : Binding}
    (hb : m.heap.binding? base name = some b) (v : Value) (strict : Bool) :
    (b.isInitialized = false → ∀ (E : Embedder σ) (fuel : Nat),
      execute E fuel (Program.putValue (.resolved base name strict) v) m =
        (.raise (.uninitialized name), m)) ∧
    (b.isInitialized = true → b.isMutable = false → ∀ (E : Embedder σ) (fuel : Nat),
      execute E fuel (Program.putValue (.resolved base name strict) v) m =
        (if strict || b.isStrict then .raise .constantAssignment else .value (), m)) ∧
    (b.isInitialized = true → b.isMutable = true → ∃ m',
      (∀ (E : Embedder σ) (fuel : Nat),
        execute E fuel (Program.putValue (.resolved base name strict) v) m = (.value (), m')) ∧
      m.Rebinds base name { b with slot := .value v } m' ∧ m.heap.SameNames m'.heap) := by
  obtain ⟨env, table, hget, ht, hget?⟩ := Heap.binding?_eq_some.mp hb
  have henv : m.heap.environment base = .value env := by rw [Heap.environment, hget]
  have hrun := fun E fuel => execute_setMutableBinding E fuel henv ht hget? v strict
  refine ⟨fun hinit E fuel => ?_, fun hinit hmutable E fuel => ?_, fun hinit hmutable => ?_⟩
  · have hassign : table.assign name v strict = .raise (.uninitialized name) := by
      simp [Bindings.assign, hget?, hinit]
    rw [Program.putValue, hrun, hassign]
    rfl
  · rw [Program.putValue, hrun, Bindings.assign_immutable hget? hmutable hinit]
    split
    · rfl
    · rw [putTable, ScopeRecord.setBindings_self ht, Heap.setRecord_self hget]
  · have hassign : table.assign name v strict =
        .value (table.insert name { b with slot := .value v }) := by
      simp [Bindings.assign, hget?, hinit, hmutable]
    have hnames : ∀ n, ((table.insert name { b with slot := .value v }).get? n).isSome =
        (table.get? n).isSome := by
      intro n
      rw [Dictionary.get?_insert]
      split
      · next hn =>
        rw [hn, hget?]
        rfl
      · rfl
    refine ⟨_, fun E fuel => ?_, rebinds_insert hget ht name _,
      Heap.sameNames_setBindings hget ht hnames⟩
    rw [Program.putValue, hrun, hassign, putTable]

/-- **Names.** Take a scope chain that ends, in which names are looked up without running code.

A name resolves to the innermost environment that has it: a global environment has it in its
table, or else as a property of its object or along the prototypes of that. It is unresolvable
exactly if no environment has it.

Let an environment have a name in its table. Assigning it there, if the binding is initialized
and mutable, succeeds and changes this binding alone, and from then on every scope that
resolves to it reads the new value. If the binding is not initialized, this fails with a
`ReferenceError`. If it is initialized and immutable, this fails with a `TypeError` where the
code or the binding is strict and is ignored otherwise. In these cases nothing changes. -/
theorem names_resolve_innermost {l : List EnvironmentId} (hl : m.heap.ScopeChain e l)
    (name : String) :
    (∀ (E : Embedder σ) (fuel : Nat) (strict : Bool), m.heap.objects.size < fuel → ∃ r,
      execute E fuel (Program.resolve e name strict) m = (.value r, m) ∧
      (∀ base, r = .resolved base name strict ↔ m.heap.Innermost name l base) ∧
      (r = .unresolvable name strict ↔ ∀ e' ∈ l, ¬ m.heap.HasName e' name)) ∧
    ∀ base b, m.heap.binding? base name = some b → ∀ (v : Value) (strict : Bool),
      (b.isInitialized = true → b.isMutable = true → ∃ m',
        (∀ (E : Embedder σ) (fuel : Nat),
          execute E fuel (Program.putValue (.resolved base name strict) v) m = (.value (), m')) ∧
        m.Rebinds base name { b with slot := .value v } m' ∧
        ∀ e' l', m.heap.ScopeChain e' l' → m.heap.Innermost name l' base →
          ∀ (E : Embedder σ) (fuel : Nat) (strict' : Bool), m.heap.objects.size < fuel →
            execute E fuel (do Program.getValue (← Program.resolve e' name strict')) m' =
              (.value v, m')) ∧
      (b.isInitialized = false → ∃ c : Cause, c.kind = .reference ∧
        ∀ (E : Embedder σ) (fuel : Nat),
          execute E fuel (Program.putValue (.resolved base name strict) v) m = (.raise c, m)) ∧
      (b.isInitialized = true → b.isMutable = false →
        ((strict || b.isStrict) = true → ∃ c : Cause, c.kind = .type ∧
          ∀ (E : Embedder σ) (fuel : Nat),
            execute E fuel (Program.putValue (.resolved base name strict) v) m = (.raise c, m)) ∧
        ((strict || b.isStrict) = false → ∀ (E : Embedder σ) (fuel : Nat),
          execute E fuel (Program.putValue (.resolved base name strict) v) m =
            (.value (), m))) := by
  refine ⟨fun E fuel strict hfuel => ?_, fun base b hb v strict => ?_⟩
  · obtain ⟨base, hbase, hrun⟩ | ⟨hnone, hrun⟩ := execute_resolve E hl hfuel name strict
    · refine ⟨_, hrun, fun base' => ⟨?_, fun hbase' => ?_⟩, iff_of_false nofun hbase.not_forall_not⟩
      · rintro ⟨⟩
        exact hbase
      · rw [hbase.unique hbase']
    · refine ⟨_, hrun, fun base => iff_of_false nofun fun hbase => ?_, iff_of_true rfl hnone⟩
      exact hbase.not_forall_not hnone
  · obtain ⟨huninitialized, himmutable, hmutable⟩ := execute_putValue hb v strict
    refine ⟨fun hinit hmut => ?_, fun hinit => ⟨_, rfl, huninitialized hinit⟩,
      fun hinit hmut => ⟨fun hstrict => ⟨.constantAssignment, rfl, fun E fuel => ?_⟩,
        fun hsloppy E fuel => ?_⟩⟩
    · obtain ⟨m', hrun, hrebinds, hsame⟩ := hmutable hinit hmut
      refine ⟨m', hrun, hrebinds, fun e' l' hl' hbase E fuel strict' hfuel => ?_⟩
      rw [← hrebinds.objects] at hfuel
      exact execute_getValue_innermost E (hsame.scopeChain hl') (hsame.innermost hbase) hfuel
        hrebinds.binding rfl strict'
    · rw [himmutable hinit hmut, if_pos hstrict]
    · rw [himmutable hinit hmut, hsloppy]
      rfl

/-- Two scopes are inside one that has a name which the global scope has too. What is assigned
from one of them is read from the other, and the global binding is not touched. -/
theorem names_resolve_innermost_shared :
    let p : Program Unit Unit := do
      let o ← Program.allocate (.ordinary none "Object" none false)
      let global ← Program.newGlobal o o
      let shared ← Program.newDeclarative global
      let _ ← Program.newDeclarative shared
      let _ ← Program.newDeclarative shared
      Program.createMutableBinding global "x" false
      Program.initializeBinding global "x" .undefined
      Program.createMutableBinding shared "x" false
      Program.initializeBinding shared "x" .undefined
    let m := (execute default 1 p (initial {} ())).2
    ∃ m', m.heap.ScopeChain ⟨2⟩ [⟨2⟩, ⟨1⟩, ⟨0⟩] ∧ m.heap.ScopeChain ⟨3⟩ [⟨3⟩, ⟨1⟩, ⟨0⟩] ∧
      execute default 13 (Program.resolve ⟨2⟩ "x" true) m =
        (.value (.resolved ⟨1⟩ "x" true), m) ∧
      execute default 13 (Program.putValue (.resolved ⟨1⟩ "x" true) .null) m = (.value (), m') ∧
      execute default 13 (do Program.getValue (← Program.resolve ⟨3⟩ "x" true)) m' =
        (.value .null, m') ∧
      m'.heap.binding? ⟨0⟩ "x" = some ⟨true, false, false, .value .undefined⟩ := by
  intro p m
  have hobject : holdsObject m.heap ⟨11⟩ (fun s => s.prototype = none) := by decide +kernel
  have hsize : m.heap.objects.size < 13 := by decide +kernel
  have hglobal : m.heap.globalObject? ⟨0⟩ = some ⟨11⟩ := by decide +kernel
  have hx : m.heap.binding? ⟨1⟩ "x" = some ⟨true, false, false, .value .undefined⟩ := by
    decide +kernel
  have hchain : m.heap.Chain (some ⟨11⟩) [⟨11⟩] := by
    obtain ⟨s, hcell, hcheck⟩ := exists_of_holdsObject hobject
    exact .cons ⟨s, getElem?_of_cell hcell, of_decide_eq_true hcheck⟩ .nil
  -- inside the global scope there is nothing but tables
  have hinner : ∀ i ∈ [1, 2, 3], m.heap.globalObject? ⟨i⟩ = none ∧ (m.heap.table? ⟨i⟩).isSome := by
    decide +kernel
  have hsettled : ∀ i ∈ [1, 2, 3], m.heap.Settled ⟨i⟩ := by
    intro i hi
    refine ⟨(hinner i hi).2, fun o ho => ?_⟩
    cases (hinner i hi).1.symm.trans ho
  have houter : m.heap.Settled ⟨0⟩ := by
    refine ⟨by decide +kernel, fun o ho => ?_⟩
    obtain rfl := Option.some.inj (hglobal.symm.trans ho)
    exact ⟨_, hchain⟩
  have hscope : ∀ i ∈ [2, 3], m.heap.ScopeChain ⟨i⟩ [⟨i⟩, ⟨1⟩, ⟨0⟩] := by
    intro i hi
    have hencloses : ∀ i ∈ [2, 3], m.heap.Encloses ⟨i⟩ (some ⟨1⟩) := by decide +kernel
    refine ⟨.cons (hencloses i hi) (.cons (by decide +kernel : m.heap.Encloses ⟨1⟩ (some ⟨0⟩))
      (.cons (by decide +kernel : m.heap.Encloses ⟨0⟩ none) .nil)), ?_⟩
    simp only [List.forall_mem_cons]
    exact ⟨hsettled i (List.mem_cons_of_mem 1 hi), hsettled 1 (by decide), houter, nofun⟩
  have hinnermost : ∀ i ∈ [2, 3], m.heap.Innermost "x" [⟨i⟩, ⟨1⟩, ⟨0⟩] ⟨1⟩ := by
    intro i hi
    have habsent : ∀ i ∈ [2, 3], (m.heap.binding? ⟨i⟩ "x").isSome = false := by decide +kernel
    refine .outward ?_ (.here (.inl (Option.isSome_of_eq_some hx)) _)
    rintro (hname | ⟨o, l, ho, -⟩)
    · cases (habsent i hi).symm.trans hname
    · cases (hinner i (List.mem_cons_of_mem 1 hi)).1.symm.trans ho
  obtain ⟨hresolve, hassign⟩ := names_resolve_innermost (hscope 2 (by decide)) "x"
  obtain ⟨r, hrun, hbase, -⟩ := hresolve default 13 true hsize
  obtain rfl := (hbase ⟨1⟩).mpr (hinnermost 2 (by decide))
  obtain ⟨m', hput, hrebinds, hread⟩ := (hassign ⟨1⟩ _ hx .null true).1 rfl rfl
  refine ⟨m', hscope 2 (by decide), hscope 3 (by decide), hrun, hput default 13,
    hread ⟨3⟩ _ (hscope 3 (by decide)) (hinnermost 3 (by decide)) default 13 true hsize, ?_⟩
  rw [hrebinds.others ⟨0⟩ "x" (.inl (by decide))]
  decide +kernel

end Machine

end Ecma
