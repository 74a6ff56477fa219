import Ecma.Proofs.Machine.Promises
import Ecma.Proofs.Scope.Persistence
import Ecma.Scope.Name

/-!
# Imports are live aliases

An import stands for a binding of another module, which may be an import again. Reading it
follows this chain through the tables of the modules (`ImportChain`). The machine gives the
walk as many steps as there are bindings. That is enough for every chain that ends, because
no binding is on it twice (`ImportChain.length_lt`); so reading an import comes to reading
the binding at the end of the chain, in its own module, as it is at that moment.

The chain itself does not change: imports are fixed, and modules keep their environments as
long as their graph is there. So an import is an alias of the same binding for ever.
-/

namespace Ecma

namespace Heap

variable {h h' : Heap} {g : GraphId} {e : EnvironmentId} {name : String}

/-! ## The names of a heap -/

/-- All names that have a binding, with their environments. -/
def names (h : Heap) : List (EnvironmentId × String) :=
  h.environments.toList.zipIdx.flatMap fun (env, i) =>
    ((env.record.bindings?.map Dictionary.keys).getD []).map (⟨i⟩, ·)

theorem length_names (h : Heap) : h.names.length = h.bindingCount := by
  have hfold : ∀ (l : List Environment) (k n : Nat),
      l.foldl (fun n env => n + (env.record.bindings?.map Dictionary.size).getD 0) n =
        n + ((l.zipIdx k).flatMap fun (env, i) =>
          ((env.record.bindings?.map Dictionary.keys).getD []).map
            ((⟨i⟩, ·) : String → EnvironmentId × String)).length := by
    intro l
    induction l with
    | nil => exact fun k n => rfl
    | cons env l ih =>
      intro k n
      rw [List.foldl_cons, ih (k + 1), List.zipIdx_cons, List.flatMap_cons, List.length_append,
        List.length_map, ← Nat.add_assoc]
      congr 2
      cases env.record.bindings? <;> simp [Dictionary.keys, Dictionary.size]
  rw [bindingCount, ← Array.foldl_toList, hfold _ 0, names, Nat.zero_add]

theorem mem_names {b : Binding} (hb : h.binding? e name = some b) : (e, name) ∈ h.names := by
  obtain ⟨env, table, henv, ht, hb⟩ := binding?_eq_some.mp hb
  refine List.mem_flatMap.mpr ⟨(env, e.index), ?_, ?_⟩
  · rw [List.mem_zipIdx_iff_getElem?, Array.getElem?_toList, henv]
  · simpa [ht] using Dictionary.mem_keys hb

/-! ## Chains of imports -/

/-- One name is an import of the other. -/
def Imports (h : Heap) (g : GraphId) (x y : EnvironmentId × String) : Prop :=
  ∃ m, h.binding? x.1 x.2 = some (.newImport m y.2) ∧ h.moduleEnvironment? g m = some y.1

/-- The imports on the way from one name to another. -/
inductive ImportChain (h : Heap) (g : GraphId) :
    EnvironmentId × String → List (EnvironmentId × String) → EnvironmentId × String → Prop
  | here (x : EnvironmentId × String) : ImportChain h g x [] x
  | link {x y z : EnvironmentId × String} {l : List (EnvironmentId × String)}
      (hx : h.Imports g x y) (hl : ImportChain h g y l z) : ImportChain h g x (x :: l) z

/-- The name has a binding, and it leads to no other. -/
def ImportEnds (h : Heap) (g : GraphId) (x : EnvironmentId × String) : Prop :=
  (h.binding? x.1 x.2).isSome ∧ ∀ y, ¬ h.Imports g x y

/-- The name leads to another, or the walk along imports ends here. -/
def Refers (h : Heap) (g : GraphId) (x : EnvironmentId × String) :
    Option (EnvironmentId × String) → Prop
  | some y => h.Imports g x y
  | none => h.ImportEnds g x

theorem Imports.unique {x y z : EnvironmentId × String} (hy : h.Imports g x y)
    (hz : h.Imports g x z) : y = z := by
  obtain ⟨m, hb, hm⟩ := hy
  obtain ⟨n, hb', hn⟩ := hz
  have hslot : BindingSlot.imported m y.2 = .imported n z.2 :=
    congrArg Binding.slot (Option.some.inj (hb.symm.trans hb'))
  obtain ⟨rfl, htarget⟩ := BindingSlot.imported.inj hslot
  exact Prod.ext (Option.some.inj (hm.symm.trans hn)) htarget

theorem singleLinked_refers (h : Heap) (g : GraphId) : SingleLinked (h.Refers g) := by
  intro x y z hy hz
  cases y with
  | none =>
    cases z with
    | none => rfl
    | some z => exact absurd hz (hy.2 z)
  | some y =>
    cases z with
    | none => exact absurd hy (hz.2 y)
    | some z => exact congrArg some (hy.unique hz)

theorem ImportChain.trail {x z : EnvironmentId × String} {l : List (EnvironmentId × String)}
    (hl : h.ImportChain g x l z) (hz : h.ImportEnds g z) :
    Trail (h.Refers g) (some x) (l ++ [z]) := by
  induction hl with
  | here x =>
    have hend : h.Refers g x none := hz
    exact .cons hend .nil
  | @link x y z l hx _ ih =>
    have hnext : h.Refers g x (some y) := hx
    exact .cons hnext (ih hz)

/-- A chain of imports that ends passes fewer imports than there are bindings. -/
theorem ImportChain.length_lt {x z : EnvironmentId × String} {l : List (EnvironmentId × String)}
    (hl : h.ImportChain g x l z) (hz : h.ImportEnds g z) : l.length < h.bindingCount := by
  have hplaces : ∀ x next, h.Refers g x next → x ∈ h.names := by
    rintro ⟨e, name⟩ (_ | y) hx
    · obtain ⟨b, hb⟩ := Option.isSome_iff_exists.mp hx.1
      exact mem_names hb
    · obtain ⟨m, hb, -⟩ := hx
      exact mem_names hb
  have hlength := (hl.trail hz).length_le (h.singleLinked_refers g) hplaces
  rw [length_names, List.length_append, List.length_singleton] at hlength
  exact hlength

/-- Chains of imports last as long as the graph is there. -/
theorem ImportChain.of_changes {whole : Bool} (hc : Changes whole h h')
    (halive : h'.graph? g ≠ none) {x z : EnvironmentId × String}
    {l : List (EnvironmentId × String)} (hl : h.ImportChain g x l z) : h'.ImportChain g x l z := by
  induction hl with
  | here x => exact .here x
  | link hx _ ih =>
    obtain ⟨m, hb, hm⟩ := hx
    exact .link ⟨m, hc.fixed hb (Binding.fixed_newImport _ _), hc.moduleEnvironment_of hm halive⟩ ih

/-! ## Reading -/

/-- The module has no environment, or its graph was dropped. -/
def LacksModule (h : Heap) (g : GraphId) (m : ModuleId) : Prop :=
  h.graph? g = none ∨ ∃ graph entry, h.graph? g = some graph ∧
    graph.modules[m.index]? = some entry ∧ entry.environment = none

theorem IsModule.table? {b : Binding} (he : h.IsModule g e) (hb : h.binding? e name = some b) :
    ∃ table outer, h.environment e = .value ⟨.module table g, outer⟩ ∧ h.table? e = some table ∧
      table.get? name = some b := by
  obtain ⟨table, outer, he⟩ := he
  obtain ⟨env, table', henv, ht, hb⟩ := binding?_eq_some.mp hb
  obtain rfl := Option.some.inj (he.symm.trans henv)
  obtain rfl := Option.some.inj ht
  exact ⟨table, outer, by rw [environment, he], by rw [Heap.table?, he]; rfl, hb⟩

/-- Reading an import reads what it stands for. -/
theorem readModule_import {y : EnvironmentId × String} (he : h.IsModule g e)
    (hy : h.Imports g (e, name) y) (fuel : Nat) :
    h.readModule (fuel + 1) e name = h.readModule fuel y.1 y.2 := by
  obtain ⟨m, hb, hm⟩ := hy
  obtain ⟨table, outer, henv, -, hb⟩ := he.table? hb
  obtain ⟨graph, hg, hentry⟩ := Option.bind_eq_some_iff.mp hm
  obtain ⟨entry, hmodule, hentry⟩ := Option.bind_eq_some_iff.mp hentry
  have himport : table.imported? name = some (m, y.2) := by rw [Bindings.imported?, hb]; rfl
  have htarget : h.importTarget g m name = .value y.1 := by
    rw [importTarget, hg]
    simp only [ModuleGraph.entry, hmodule, Outcome.value_bind, hentry, Outcome.pure_eq]
  rw [readModule, henv, Outcome.value_bind]
  simp only [himport, htarget, Outcome.value_bind]

/-- Reading along a chain of imports comes to reading at its end, which is in a module of
the same graph. -/
theorem ImportChain.readModule (hh : h.Housed) {x z : EnvironmentId × String}
    {l : List (EnvironmentId × String)} (hl : h.ImportChain g x l z) (hx : h.IsModule g x.1)
    (fuel : Nat) :
    h.IsModule g z.1 ∧ h.readModule (fuel + l.length) x.1 x.2 = h.readModule fuel z.1 z.2 := by
  induction hl with
  | here x => exact ⟨hx, rfl⟩
  | @link x y z l hy _ ih =>
    have hymodule : h.IsModule g y.1 := by
      obtain ⟨m, -, hm⟩ := hy
      exact hh g m y.1 hm
    obtain ⟨hz, hread⟩ := ih hymodule
    exact ⟨hz, (readModule_import hx hy _).trans hread⟩

theorem readModule_local {b : Binding} (he : h.IsModule g e) (hb : h.binding? e name = some b)
    (hlocal : ∀ m target, b.slot ≠ .imported m target) :
    ∃ table, h.table? e = some table ∧
      ∀ fuel, h.readModule (fuel + 1) e name = table.read name := by
  obtain ⟨table, outer, henv, ht, hb⟩ := he.table? hb
  have himport : table.imported? name = none := by
    rw [Bindings.imported?, hb]
    obtain ⟨_, _, _, _ | v | ⟨m, target⟩⟩ := b
    · rfl
    · rfl
    · exact absurd rfl (hlocal m target)
  refine ⟨table, ht, fun fuel => ?_⟩
  rw [Heap.readModule, henv, Outcome.value_bind]
  simp only [himport]

theorem readModule_absent {m : ModuleId} {target : String} (he : h.IsModule g e)
    (hb : h.binding? e name = some (.newImport m target)) (hm : h.LacksModule g m) (fuel : Nat) :
    h.readModule (fuel + 1) e name = .raise (.notDefined name) := by
  obtain ⟨table, outer, henv, -, hb⟩ := he.table? hb
  have himport : table.imported? name = some (m, target) := by rw [Bindings.imported?, hb]; rfl
  have htarget : h.importTarget g m name = .raise (.notDefined name) := by
    rw [importTarget]
    rcases hm with hdropped | ⟨graph, entry, hg, hmodule, hnone⟩
    · rw [hdropped]
    · rw [hg]
      simp only [ModuleGraph.entry, hmodule, Outcome.value_bind, hnone]
  rw [Heap.readModule, henv, Outcome.value_bind]
  simp only [himport, htarget]
  rfl

/-- A name with a binding that is no import is the end of a chain, and so is an import from
a module that has no environment. -/
theorem importEnds_local {b : Binding} (hb : h.binding? e name = some b)
    (hlocal : ∀ m target, b.slot ≠ .imported m target) : h.ImportEnds g (e, name) := by
  refine ⟨Option.isSome_of_eq_some hb, ?_⟩
  rintro y ⟨m, himport, -⟩
  obtain rfl := Option.some.inj (hb.symm.trans himport)
  exact hlocal m y.2 rfl

theorem importEnds_absent {m : ModuleId} {target : String}
    (hb : h.binding? e name = some (.newImport m target)) (hm : h.LacksModule g m) :
    h.ImportEnds g (e, name) := by
  refine ⟨Option.isSome_of_eq_some hb, ?_⟩
  rintro y ⟨n, himport, hn⟩
  have hslot : BindingSlot.imported m target = .imported n y.2 :=
    congrArg Binding.slot (Option.some.inj (hb.symm.trans himport))
  obtain ⟨rfl, -⟩ := BindingSlot.imported.inj hslot
  obtain ⟨graph, hg, hentry⟩ := Option.bind_eq_some_iff.mp hn
  obtain ⟨entry, hmodule, hentry⟩ := Option.bind_eq_some_iff.mp hentry
  rcases hm with hdropped | ⟨graph', entry', hg', hmodule', hnone⟩
  · cases hdropped.symm.trans hg
  · obtain rfl := Option.some.inj (hg.symm.trans hg')
    obtain rfl := Option.some.inj (hmodule.symm.trans hmodule')
    cases hnone.symm.trans hentry

/-- The steps that the machine gives a walk are enough for a chain that ends. -/
theorem ImportChain.readModule_bindingCount (hh : h.Housed) {x z : EnvironmentId × String}
    {l : List (EnvironmentId × String)} (hl : h.ImportChain g x l z) (hx : h.IsModule g x.1)
    (hz : h.ImportEnds g z) :
    h.IsModule g z.1 ∧
      ∃ fuel, h.readModule (h.bindingCount + 1) x.1 x.2 = h.readModule (fuel + 1) z.1 z.2 := by
  obtain ⟨fuel, hfuel⟩ : ∃ fuel, h.bindingCount + 1 = fuel + 1 + l.length :=
    ⟨h.bindingCount - l.length, by have := hl.length_lt hz; omega⟩
  obtain ⟨hmodule, hread⟩ := hl.readModule hh hx (fuel + 1)
  exact ⟨hmodule, fuel, hfuel ▸ hread⟩

end Heap

namespace Machine

variable {σ : Type} (E : Embedder σ) (fuel : Nat) {m : Machine σ} {g : GraphId}
  {e : EnvironmentId} {name : String}

theorem execute_environment {env : Environment} (he : m.heap.environment e = .value env) :
    execute E fuel (Program.environment e) m = (.value env, m) := by
  rw [Program.environment, execute_bind (execute_heap E fuel m), he]
  rfl

/-- The value of a name in a module. -/
theorem execute_getBindingValue (he : m.heap.IsModule g e) (name : String) (strict : Bool) :
    execute E fuel (Program.getBindingValue e name strict) m =
      (m.heap.readModule (m.heap.bindingCount + 1) e name, m) := by
  obtain ⟨table, outer, he⟩ := he
  have henv : m.heap.environment e = .value ⟨.module table g, outer⟩ := by rw [Heap.environment, he]
  rw [Program.getBindingValue, execute_bind (execute_environment E fuel henv)]
  dsimp only
  rw [execute_bind (execute_heap E fuel m), execute_ofOutcome]

/-- What is left when an environment is to get another table: it has it, or nothing has
changed. -/
def putTable (m : Machine σ) (e : EnvironmentId) (r : ScopeRecord) :
    Outcome Bindings → Outcome Unit × Machine σ
  | .value table => (.value (), { m with heap := m.heap.setRecord e (r.setBindings table) })
  | .failure f => (.failure f, m)
  | .stopped s => (.stopped s, m)

theorem execute_assign {env : Environment} {table : Bindings}
    (henv : m.heap.environment e = .value env) (ht : env.record.bindings? = some table)
    (name : String) (v : Value) (strict : Bool) :
    execute E fuel (do
        let _ ← Program.changeBindings e (.assign name v strict)
        return ()) m =
      m.putTable e env.record (table.assign name v strict) := by
  have heffect : execute E fuel (Program.changeBindings e (.assign name v strict)) m =
      Run.tryHeap (fun h => h.bindings e (.assign name v strict)) m := Program.run_effect _ _ m
  rw [execute_bind_eq, Run.bind, heffect, Run.tryHeap, Heap.bindings, henv, Outcome.value_bind, ht]
  simp only [BindingCommand.apply]
  rcases table.assign name v strict with table' | f | s <;> rfl

/-- Assigning a name that has a binding is up to the table that has it. -/
theorem execute_setMutableBinding {env : Environment} {table : Bindings} {b : Binding}
    (henv : m.heap.environment e = .value env) (ht : env.record.bindings? = some table)
    (hb : table.get? name = some b) (v : Value) (strict : Bool) :
    execute E fuel (Program.setMutableBinding e name v strict) m =
      m.putTable e env.record (table.assign name v strict) := by
  have hassign := execute_assign E fuel henv ht name v strict
  rw [Program.setMutableBinding, execute_bind (execute_environment E fuel henv)]
  rcases hrecord : env.record with t | s | f | g | ⟨t, g⟩ <;> rw [hrecord] at ht hassign
  · exact hassign
  · cases ht
  · exact hassign
  · -- the table of a global environment is asked before its object
    obtain rfl : g.bindings = table := Option.some.inj ht
    have hcontains : g.bindings.contains name = true := Option.isSome_of_eq_some hb
    dsimp only
    rw [if_pos hcontains]
    exact hassign
  · exact hassign

/-- An import cannot be assigned. -/
theorem execute_setMutableBinding_import {module : ModuleId} {target : String}
    (he : m.heap.IsModule g e) (hb : m.heap.binding? e name = some (.newImport module target))
    (v : Value) (strict : Bool) :
    execute E fuel (Program.setMutableBinding e name v strict) m =
      (.raise .constantAssignment, m) := by
  obtain ⟨table, outer, henv, -, hb⟩ := he.table? hb
  have hassign : table.assign name v strict = .raise .constantAssignment := by
    rw [Bindings.assign_immutable hb rfl rfl, if_pos (by simp [Binding.newImport])]
  rw [execute_setMutableBinding E fuel henv rfl hb, hassign]
  rfl

/-- **Imports are live aliases.** Take an import in the environment of a module, in a
machine that a run passes through, and any machine that later runs pass through from there.

* The import is still there, and so is the chain of imports that starts with it, unless the
  graph was dropped.
* If the chain ends at a binding that is no import, reading the import gives what reading
  that binding in its own module gives. If it ends at a module that has no environment, or
  the graph was dropped, reading the import fails with a `ReferenceError`.
* Assigning the import fails with a `TypeError` in strict and sloppy code.

Reading and assigning change nothing. -/
theorem imports_are_live {options : RealmOptions} {host : σ} {m₀ m m₁ m' : Machine σ}
    (h : (initial options host).Reaches m₀) {E : Embedder σ} {fuel : Nat} {α : Type}
    {p : Program σ α} (hp : Passes E fuel α p m₀ m) (he : m.heap.IsModule g e) {module : ModuleId}
    {target : String} (hb : m.heap.binding? e name = some (.newImport module target))
    (h₁ : m.Reaches m₁) {E' : Embedder σ} {fuel' : Nat} {β : Type} {q : Program σ β}
    (hq : Passes E' fuel' β q m₁ m') :
    m'.heap.IsModule g e ∧ m'.heap.binding? e name = some (.newImport module target) ∧
    (∀ l x, m'.heap.graph? g ≠ none → m.heap.ImportChain g (e, name) l x →
      m'.heap.ImportChain g (e, name) l x) ∧
    (∀ l e' name' b, m'.heap.ImportChain g (e, name) l (e', name') →
      m'.heap.binding? e' name' = some b → (∀ m target, b.slot ≠ .imported m target) →
      ∃ table, m'.heap.table? e' = some table ∧ ∀ (E : Embedder σ) (fuel : Nat) (strict : Bool),
        execute E fuel (Program.getBindingValue e name strict) m' = (table.read name', m') ∧
        execute E fuel (Program.getBindingValue e' name' strict) m' = (table.read name', m')) ∧
    (∀ l e' name' module' target', m'.heap.ImportChain g (e, name) l (e', name') →
      m'.heap.binding? e' name' = some (.newImport module' target') →
      m'.heap.LacksModule g module' → ∃ c : Cause, c.kind = .reference ∧
        ∀ (E : Embedder σ) (fuel : Nat) (strict : Bool),
          execute E fuel (Program.getBindingValue e name strict) m' = (.raise c, m')) ∧
    ∃ c : Cause, c.kind = .type ∧ ∀ (E : Embedder σ) (fuel : Nat) (v : Value) (strict : Bool),
      execute E fuel (Program.setMutableBinding e name v strict) m' = (.raise c, m') := by
  have hhoused : m'.heap.Housed :=
    (((h.changes.trans hp.changes).trans h₁.changes).trans hq.changes).housed Heap.housed_initial
  have hlater : Heap.Changes true m.heap m'.heap := h₁.changes.trans hq.changes
  have he' := hlater.isModule he
  have hb' := hlater.fixed hb (Binding.fixed_newImport module target)
  refine ⟨he', hb', fun l x halive hl => hl.of_changes hlater halive, ?_, ?_, ?_⟩
  · intro l e₂ name₂ b hl hend hlocal
    obtain ⟨hmodule, steps, hread⟩ :=
      hl.readModule_bindingCount hhoused he' (Heap.importEnds_local hend hlocal)
    obtain ⟨table, ht, hlast⟩ := Heap.readModule_local hmodule hend hlocal
    refine ⟨table, ht, fun E fuel strict => ⟨?_, ?_⟩⟩
    · rw [execute_getBindingValue E fuel he', hread, hlast]
    · rw [execute_getBindingValue E fuel hmodule, hlast]
  · intro l e₂ name₂ module' target' hl hend hlacks
    obtain ⟨hmodule, steps, hread⟩ :=
      hl.readModule_bindingCount hhoused he' (Heap.importEnds_absent hend hlacks)
    refine ⟨.notDefined name₂, rfl, fun E fuel strict => ?_⟩
    rw [execute_getBindingValue E fuel he', hread, Heap.readModule_absent hmodule hend hlacks]
  · exact ⟨.constantAssignment, rfl, fun E fuel v strict =>
      execute_setMutableBinding_import E fuel he' hb' v strict⟩

/-- A module imports what another one re-exports from a third. It sees the value that the
binding there has got, and then the value that it is assigned. -/
theorem imports_are_live_reexported :
    let p : Program Unit Unit := do
      let g : GraphId ← Program.effect .newGraph
      let a : ModuleId ← Program.effect (.addModule g "a")
      let b : ModuleId ← Program.effect (.addModule g "b")
      let c : ModuleId ← Program.effect (.addModule g "c")
      let outer : EnvironmentId ← Program.effect (.enclose ⟨.declarative ∅, none⟩)
      let x : EnvironmentId ← Program.effect (.instantiate g a outer)
      let y : EnvironmentId ← Program.effect (.instantiate g b outer)
      let z : EnvironmentId ← Program.effect (.instantiate g c outer)
      Program.createImportBinding z "z" b "y"
      Program.createImportBinding y "y" a "x"
      Program.createMutableBinding x "x" false
      Program.initializeBinding x "x" .null
    let q : Program Unit Unit := Program.setMutableBinding ⟨1⟩ "x" .undefined true
    let m := (execute default 1 p (initial {} ())).2
    let m' := (execute default 1 q m).2
    execute default 1 (Program.getBindingValue ⟨3⟩ "z" true) m = (.value .null, m) ∧
      execute default 1 (Program.getBindingValue ⟨3⟩ "z" true) m' = (.value .undefined, m') := by
  intro p q m m'
  have hreaches : m.Reaches m' := .run (.refl m) default 1 q
  have he : m.heap.IsModule ⟨0⟩ ⟨3⟩ := by decide +kernel
  have hz : m.heap.binding? ⟨3⟩ "z" = some (.newImport ⟨1⟩ "y") := by decide +kernel
  have hy : m.heap.binding? ⟨2⟩ "y" = some (.newImport ⟨0⟩ "x") := by decide +kernel
  have hchain : m.heap.ImportChain ⟨0⟩ (⟨3⟩, "z") [(⟨3⟩, "z"), (⟨2⟩, "y")] (⟨1⟩, "x") :=
    .link ⟨⟨1⟩, hz, by decide +kernel⟩ (.link ⟨⟨0⟩, hy, by decide +kernel⟩ (.here _))
  have hx : m.heap.binding? ⟨1⟩ "x" = some ⟨true, false, false, .value .null⟩ := by decide +kernel
  have hx' : m'.heap.binding? ⟨1⟩ "x" = some ⟨true, false, false, .value .undefined⟩ := by
    decide +kernel
  have halive : m'.heap.graph? ⟨0⟩ ≠ none := by decide +kernel
  have hp := passes_end default 1 p (initial {} ())
  -- at the end of the first run, and at the end of the second
  obtain ⟨-, -, -, hread, -⟩ := imports_are_live (.refl _) hp he hz (.refl m)
    (Passes.here q m : Passes default 1 Unit q m m)
  obtain ⟨-, -, hlasts, hread', -⟩ := imports_are_live (.refl _) hp he hz hreaches
    (Passes.here q m' : Passes default 1 Unit q m' m')
  obtain ⟨table, ht, hvalue⟩ := hread _ _ _ _ hchain hx nofun
  obtain ⟨table', ht', hvalue'⟩ := hread' _ _ _ _ (hlasts _ _ halive hchain) hx' nofun
  rw [Heap.binding?, ht, Option.bind_some] at hx
  rw [Heap.binding?, ht', Option.bind_some] at hx'
  have hnull : table.read "x" = .value .null := by rw [Bindings.read, hx]
  have hundefined : table'.read "x" = .value .undefined := by rw [Bindings.read, hx']
  exact ⟨hnull ▸ (hvalue default 1 true).1, hundefined ▸ (hvalue' default 1 true).1⟩

end Machine

end Ecma
