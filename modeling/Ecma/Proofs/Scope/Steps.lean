import Ecma.Heap

/-!
# What a run can do to environments and module graphs

Environments and module graphs are changed by effects only, one at a time.
`Heap.ScopeStep` lists what an effect can come to: a new environment or graph, a change of
one record by the rules of its kind (`ScopeRecord.Step`), a change of one graph
(`ModuleGraph.Step`), a graph that is dropped, and a module that gets its environment. The
operations of the heap take such steps and leave objects alone.
-/

namespace Ecma

/-- A change of the record of an environment. -/
inductive ScopeRecord.Step : ScopeRecord → ScopeRecord → Prop
  | bindings {r : ScopeRecord} {table table' : Bindings} (hr : r.bindings? = some table)
      {c : BindingCommand} {answer : Bool} (hc : c.apply table = .value (answer, table')) :
      Step r (r.setBindings table')
  | bindThis (f : FunctionScope) {this : ThisBinding} {v : Value}
      (hthis : f.this.bind v = .value this) : Step (.function f) (.function { f with this })
  | declareVar (g : GlobalScope) (name : String) : Step (.global g) (.global (g.declareVar name))
  | forgetVar (g : GlobalScope) (name : String) : Step (.global g) (.global (g.forgetVar name))

/-- A change of a module graph that concerns no environment. -/
inductive ModuleGraph.Step : ModuleGraph → ModuleGraph → Prop
  | add (g : ModuleGraph) (specifier : String) : Step g (g.add specifier).2
  | setStatus (g : ModuleGraph) (m : ModuleId) (s : ModuleStatus) :
      Step g (g.update m fun e => { e with status := s })

theorem ModuleGraph.entry_eq_value {graph : ModuleGraph} {m : ModuleId}
    {entry : ModuleEntry} (hm : graph.entry m = .value entry) :
    graph.modules[m.index]? = some entry := by
  rw [ModuleGraph.entry] at hm
  split at hm
  · next hentry => rw [hentry, Outcome.value.inj hm]
  · cases hm

namespace Heap

/-- A change of the environments and the module graphs of a heap. -/
inductive ScopeStep : Heap → Heap → Prop
  | keep {h h' : Heap} (henvironments : h'.environments = h.environments)
      (hgraphs : h'.graphs = h.graphs) : ScopeStep h h'
  | enclose (h : Heap) (env : Environment) : ScopeStep h (h.enclose env).2
  | record {h : Heap} {e : EnvironmentId} {env : Environment} {r : ScopeRecord}
      (he : h.environments[e.index]? = some env) (hr : env.record.Step r) :
      ScopeStep h (h.setRecord e r)
  | newGraph (h : Heap) : ScopeStep h h.newGraph.2
  | dropGraph (h : Heap) (g : GraphId) : ScopeStep h (h.setGraph g none)
  | graph {h : Heap} {g : GraphId} {graph graph' : ModuleGraph} (hg : h.graph? g = some graph)
      (hgraph : graph.Step graph') : ScopeStep h (h.setGraph g (some graph'))
  /-- a module that has no environment gets a new one -/
  | instantiate {h : Heap} {g : GraphId} {graph : ModuleGraph} {m : ModuleId} {entry : ModuleEntry}
      (hg : h.graph? g = some graph) (hm : graph.modules[m.index]? = some entry)
      (hnew : entry.environment = none) (outer : EnvironmentId) :
      ScopeStep h ((h.enclose ⟨.module ∅ g, some outer⟩).2.setGraph g
        (some (graph.update m fun e => { e with environment := some ⟨h.environments.size⟩ })))

/-- A change that leaves objects alone. -/
structure ScopesOnly (h h' : Heap) : Prop where
  objects : h'.objects = h.objects
  step : ScopeStep h h'

theorem ScopesOnly.refl (h : Heap) : ScopesOnly h h := ⟨rfl, .keep rfl rfl⟩

variable {h h' : Heap} {e : EnvironmentId}

theorem environment_eq_value {env : Environment} (he : h.environment e = .value env) :
    h.environments[e.index]? = some env := by
  rw [environment] at he
  split at he
  · next henv => rw [henv, Outcome.value.inj he]
  · cases he

theorem graph_eq_value {g : GraphId} {graph : ModuleGraph} (hg : h.graph g = .value graph) :
    h.graph? g = some graph := by
  rw [Heap.graph] at hg
  split at hg
  · next hgraph => rw [hgraph, Outcome.value.inj hg]
  · cases hg

/-! ## The operations of the heap -/

theorem scopes_bindings {c : BindingCommand} {answer : Bool}
    (hres : h.bindings e c = .value (answer, h')) : ScopesOnly h h' := by
  obtain ⟨env, he, hres⟩ := Outcome.bind_eq_value hres
  split at hres
  · next table htable =>
    obtain ⟨⟨answer', table'⟩, hc, hres⟩ := Outcome.bind_eq_value hres
    obtain ⟨-, rfl⟩ := Prod.mk.inj (Outcome.value.inj hres)
    exact ⟨rfl, .record (environment_eq_value he) (.bindings htable hc)⟩
  · cases hres

theorem scopes_bindThis {v : Value} (hres : h.bindThis e v = .value h') : ScopesOnly h h' := by
  obtain ⟨env, he, hres⟩ := Outcome.bind_eq_value hres
  split at hres
  · next f hf =>
    obtain ⟨this, hthis, hres⟩ := Outcome.bind_eq_value hres
    obtain rfl := Outcome.value.inj hres
    exact ⟨rfl, .record (environment_eq_value he) (hf ▸ .bindThis f hthis)⟩
  · cases hres

theorem scopes_modifyGlobal {f : GlobalScope → GlobalScope}
    (hf : ∀ g, ScopeRecord.Step (.global g) (.global (f g)))
    (hres : h.modifyGlobal e f = .value h') : ScopesOnly h h' := by
  obtain ⟨env, he, hres⟩ := Outcome.bind_eq_value hres
  split at hres
  · next g hg =>
    obtain rfl := Outcome.value.inj hres
    exact ⟨rfl, .record (environment_eq_value he) (hg ▸ hf g)⟩
  · cases hres

variable {g : GraphId} {m : ModuleId}

theorem scopes_addModule {specifier : String}
    (hres : h.addModule g specifier = .value (m, h')) : ScopesOnly h h' := by
  obtain ⟨graph, hg, hres⟩ := Outcome.bind_eq_value hres
  obtain ⟨-, rfl⟩ := Prod.mk.inj (Outcome.value.inj hres)
  exact ⟨rfl, .graph (graph_eq_value hg) (.add graph specifier)⟩

theorem scopes_setStatus {status : ModuleStatus} (hres : h.setStatus g m status = .value h') :
    ScopesOnly h h' := by
  obtain ⟨graph, hg, hres⟩ := Outcome.bind_eq_value hres
  obtain ⟨entry, -, hres⟩ := Outcome.bind_eq_value hres
  obtain rfl := Outcome.value.inj hres
  exact ⟨rfl, .graph (graph_eq_value hg) (.setStatus graph m status)⟩

theorem scopes_instantiate {outer : EnvironmentId}
    (hres : h.instantiate g m outer = .value (e, h')) : ScopesOnly h h' := by
  obtain ⟨graph, hg, hres⟩ := Outcome.bind_eq_value hres
  obtain ⟨entry, hm, hres⟩ := Outcome.bind_eq_value hres
  split at hres
  · obtain ⟨-, rfl⟩ := Prod.mk.inj (Outcome.value.inj hres)
    exact .refl h
  · next hnew =>
    obtain ⟨-, rfl⟩ := Prod.mk.inj (Outcome.value.inj hres)
    exact ⟨rfl, .instantiate (graph_eq_value hg) (ModuleGraph.entry_eq_value hm) hnew outer⟩

end Heap

end Ecma
