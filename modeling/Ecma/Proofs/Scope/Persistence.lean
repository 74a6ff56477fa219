import Ecma.Proofs.Machine.Changes
import Ecma.Proofs.Scope.BindingLife

/-!
# What stays of environments and modules

Whatever is run, an environment stays of its kind, and a binding that is immutable,
initialized and may not be deleted stays what it is: imports above all. A module keeps its
environment until its graph is dropped, and that environment is a module's, of the same
graph (`Heap.Housed`). Each of these is kept by every step that a run can take, and so by
every run.
-/

namespace Ecma

/-! ## Bindings -/

/-- A change of a table does to the binding of a name what calls can do. -/
theorem BindingCommand.step {t t' : Bindings} {c : BindingCommand} {answer : Bool}
    (hc : c.apply t = .value (answer, t')) (name : String) :
    ∃ made v, BindingStep made (t.get? name) v (t'.get? name) := by
  cases c with
  | create n b =>
    obtain ⟨t'', hcreate, hres⟩ := Outcome.bind_eq_value hc
    obtain ⟨-, rfl⟩ := Prod.mk.inj (Outcome.value.inj hres)
    exact ⟨_, _, BindingCall.step_create hcreate name⟩
  | init n v =>
    obtain ⟨t'', hinit, hres⟩ := Outcome.bind_eq_value hc
    obtain ⟨-, rfl⟩ := Prod.mk.inj (Outcome.value.inj hres)
    exact ⟨_, _, BindingCall.step_of_value (c := .init n v) hinit name⟩
  | assign n v strict =>
    obtain ⟨t'', hassign, hres⟩ := Outcome.bind_eq_value hc
    obtain ⟨-, rfl⟩ := Prod.mk.inj (Outcome.value.inj hres)
    exact ⟨_, _, BindingCall.step_assign hassign name⟩
  | delete n =>
    have hdelete : (t.delete n).2 = t' := congrArg Prod.snd (Outcome.value.inj hc)
    exact ⟨_, _, BindingCall.step_of_value (c := .delete n) (congrArg Outcome.value hdelete) name⟩

/-- What is fixed for ever. -/
structure Binding.Fixed (b : Binding) : Prop where
  isMutable : b.isMutable = false
  isDeletable : b.isDeletable = false
  isInitialized : b.isInitialized = true

theorem Binding.fixed_newImport (m : ModuleId) (target : String) : (newImport m target).Fixed :=
  ⟨rfl, rfl, rfl⟩

theorem BindingStep.fixed {made new : Option Binding} {b : Binding} {v : Option Value}
    (h : BindingStep made (some b) v new) (hb : b.Fixed) : new = some b := by
  obtain ⟨b', rfl⟩ := Option.isSome_iff_exists.mp (h.isSome hb.isDeletable)
  rw [h.matures.eq hb.isInitialized hb.isMutable]

/-! ## Environments -/

namespace ScopeRecord

/-- A record with a table has the table that it is given. -/
theorem bindings?_setBindings (r : ScopeRecord) {table : Bindings} (h : r.bindings? = some table)
    (table' : Bindings) : (r.setBindings table').bindings? = some table' := by
  cases r with
  | object s => cases h
  | _ => rfl

/-- A record with a table keeps its kind and what is fixed in the table. -/
theorem Step.fixed {r r' : ScopeRecord} (h : r.Step r') {table : Bindings}
    (ht : r.bindings? = some table) {name : String} {b : Binding} (hb : table.get? name = some b)
    (hfixed : b.Fixed) : ∃ table', r'.bindings? = some table' ∧ table'.get? name = some b := by
  cases h with
  | @bindings _ old new hr c answer hc =>
    obtain rfl := Option.some.inj (hr.symm.trans ht)
    have hnew := r.bindings?_setBindings hr new
    obtain ⟨made, v, hstep⟩ := BindingCommand.step hc name
    rw [hb] at hstep
    exact ⟨new, hnew, hstep.fixed hfixed⟩
  | bindThis f hthis => exact ⟨table, ht, hb⟩
  | declareVar g n =>
    refine ⟨table, ?_, hb⟩
    rw [← ht]
    simp only [bindings?, GlobalScope.declareVar]
    split <;> rfl
  | forgetVar g n => exact ⟨table, ht, hb⟩

/-- The record of a module stays one of a module of the same graph. -/
theorem Step.module {table : Bindings} {g : GraphId} {r' : ScopeRecord}
    (h : (module table g).Step r') : ∃ table', r' = module table' g := by
  cases h with
  | bindings hr hc => exact ⟨_, rfl⟩

end ScopeRecord

/-! ## Module graphs -/

namespace ModuleGraph

/-- The environment of a module of the graph. -/
def environment? (graph : ModuleGraph) (m : ModuleId) : Option EnvironmentId :=
  graph.modules[m.index]?.bind (·.environment)

/-- Adding modules and setting their status concerns no environment. -/
theorem Step.environment? {graph graph' : ModuleGraph} (h : graph.Step graph') (m : ModuleId) :
    graph'.environment? m = graph.environment? m := by
  cases h with
  | add specifier =>
    rw [ModuleGraph.environment?, ModuleGraph.environment?, ModuleGraph.add]
    split
    · rfl
    · rw [List.getElem?_append]
      split
      · rfl
      · next hge =>
        -- a module that was not there has no environment, nor has the new one
        rw [List.getElem?_eq_none (Nat.le_of_not_lt hge), Option.bind_none]
        rcases m.index - graph.modules.length with _ | n <;> rfl
  | setStatus n status =>
    rw [ModuleGraph.environment?, ModuleGraph.environment?, update, List.getElem?_modify]
    rcases graph.modules[m.index]? with _ | entry
    · rfl
    · by_cases heq : n.index = m.index <;> simp [heq]

theorem environment?_update_self {graph : ModuleGraph} {m : ModuleId} {entry : ModuleEntry}
    (hm : graph.modules[m.index]? = some entry) (e : EnvironmentId) :
    (graph.update m fun entry => { entry with environment := some e }).environment? m = some e := by
  rw [environment?, update, List.getElem?_modify_eq, hm]
  rfl

theorem environment?_update_ne {graph : ModuleGraph} {m n : ModuleId} (hne : n ≠ m)
    (f : ModuleEntry → ModuleEntry) : (graph.update m f).environment? n = graph.environment? n := by
  have hindex : m.index ≠ n.index := fun heq => hne (congrArg ModuleId.mk heq.symm)
  rw [environment?, environment?, update, List.getElem?_modify_ne _ _ hindex]

end ModuleGraph

namespace Heap

variable {h h' : Heap} {g : GraphId} {m : ModuleId} {e : EnvironmentId} {name : String}

/-- The table of bindings of an environment. -/
def table? (h : Heap) (e : EnvironmentId) : Option Bindings :=
  h.environments[e.index]?.bind fun env => env.record.bindings?

/-- The binding of a name in an environment. -/
def binding? (h : Heap) (e : EnvironmentId) (name : String) : Option Binding :=
  (h.table? e).bind fun table => table.get? name

/-- The environment is that of a module of a graph. -/
def IsModule (h : Heap) (g : GraphId) (e : EnvironmentId) : Prop :=
  ∃ table outer, h.environments[e.index]? = some ⟨.module table g, outer⟩

instance (h : Heap) (g : GraphId) (e : EnvironmentId) : Decidable (h.IsModule g e) :=
  match hcell : h.environments[e.index]? with
  | some ⟨.module table g', outer⟩ =>
    if heq : g' = g then .isTrue ⟨table, outer, by rw [hcell, heq]⟩
    else .isFalse fun ⟨_, _, hmodule⟩ => heq (by cases hcell.symm.trans hmodule; rfl)
  | some ⟨.declarative _, _⟩ | some ⟨.object _, _⟩ | some ⟨.function _, _⟩ | some ⟨.global _, _⟩
  | none => .isFalse fun ⟨_, _, hmodule⟩ => by cases hcell.symm.trans hmodule

/-- The environment that a module of a graph has. -/
def moduleEnvironment? (h : Heap) (g : GraphId) (m : ModuleId) : Option EnvironmentId :=
  (h.graph? g).bind (·.environment? m)

/-- The environments of modules are such, of the graphs of the modules. -/
def Housed (h : Heap) : Prop := ∀ g m e, h.moduleEnvironment? g m = some e → h.IsModule g e

theorem housed_initial : Heap.initial.Housed := nofun

/-! ## One step -/

/-- An environment stays where it is, and its record changes by its rules at most. -/
theorem ScopeStep.environment (hs : h.ScopeStep h') {i : Nat} {env : Environment}
    (hi : h.environments[i]? = some env) :
    ∃ r, h'.environments[i]? = some { env with record := r } ∧
      (r = env.record ∨ env.record.Step r) := by
  have hpush : ∀ new, (h.environments.push new)[i]? = some env := fun new => by
    rw [Array.getElem?_push, if_neg (Nat.ne_of_lt (Array.getElem?_eq_some_iff.mp hi).1), hi]
  cases hs with
  | keep henvironments _ => exact ⟨env.record, henvironments ▸ hi, .inl rfl⟩
  | enclose new => exact ⟨env.record, hpush new, .inl rfl⟩
  | @record e old r he hr =>
    by_cases heq : e.index = i
    · subst heq
      obtain rfl := Option.some.inj (he.symm.trans hi)
      exact ⟨r, by simp [setRecord, Array.getElem?_modify, hi], .inr hr⟩
    · exact ⟨env.record, by simp [setRecord, Array.getElem?_modify, heq, hi], .inl rfl⟩
  | newGraph => exact ⟨env.record, hi, .inl rfl⟩
  | dropGraph _ => exact ⟨env.record, hi, .inl rfl⟩
  | graph _ _ => exact ⟨env.record, hi, .inl rfl⟩
  | instantiate _ _ _ outer => exact ⟨env.record, hpush _, .inl rfl⟩

theorem ScopeStep.isModule (hs : h.ScopeStep h') (he : h.IsModule g e) : h'.IsModule g e := by
  obtain ⟨table, outer, he⟩ := he
  obtain ⟨r, he', rfl | hr⟩ := hs.environment he
  · exact ⟨table, outer, he'⟩
  · obtain ⟨table', rfl⟩ := hr.module
    exact ⟨table', outer, he'⟩

theorem binding?_eq_some {b : Binding} :
    h.binding? e name = some b ↔ ∃ env table, h.environments[e.index]? = some env ∧
      env.record.bindings? = some table ∧ table.get? name = some b := by
  simp only [binding?, table?, Option.bind_eq_some_iff]
  constructor
  · rintro ⟨table, ⟨env, henv, ht⟩, hb⟩
    exact ⟨env, table, henv, ht, hb⟩
  · rintro ⟨env, table, henv, ht, hb⟩
    exact ⟨table, ⟨env, henv, ht⟩, hb⟩

theorem ScopeStep.fixed (hs : h.ScopeStep h') {b : Binding} (hb : h.binding? e name = some b)
    (hfixed : b.Fixed) : h'.binding? e name = some b := by
  obtain ⟨env, table, henv, ht, hb⟩ := binding?_eq_some.mp hb
  obtain ⟨r, henv', rfl | hr⟩ := hs.environment henv
  · exact binding?_eq_some.mpr ⟨_, table, henv', ht, hb⟩
  · obtain ⟨table', ht', hb'⟩ := hr.fixed ht hb hfixed
    exact binding?_eq_some.mpr ⟨_, table', henv', ht', hb'⟩

/-- What a step can do to one module graph. -/
inductive GraphStep (h h' : Heap) (g : GraphId) : Prop
  | keep (hg : h'.graphs[g.index]? = h.graphs[g.index]?)
  | create (hold : h.graphs[g.index]? = none) (hg : h'.graphs[g.index]? = some (some .empty))
  | drop (hg : h'.graphs[g.index]? = some none)
  | change {graph graph' : ModuleGraph} (hold : h.graphs[g.index]? = some (some graph))
      (hstep : graph.Step graph') (hg : h'.graphs[g.index]? = some (some graph'))
  | instantiate {graph : ModuleGraph} {m : ModuleId} {entry : ModuleEntry}
      (hold : h.graphs[g.index]? = some (some graph)) (hm : graph.modules[m.index]? = some entry)
      (hnew : entry.environment = none) {e : EnvironmentId} (he : h'.IsModule g e)
      (hg : h'.graphs[g.index]? =
        some (some (graph.update m fun entry => { entry with environment := some e })))

theorem getElem?_graphs {graph : ModuleGraph} :
    h.graph? g = some graph ↔ h.graphs[g.index]? = some (some graph) := by
  rw [graph?, Option.join_eq_some_iff]

theorem getElem?_setGraph_self {old : Option ModuleGraph} (hg : h.graphs[g.index]? = some old)
    (x : Option ModuleGraph) : (h.setGraph g x).graphs[g.index]? = some x :=
  Array.getElem?_setIfInBounds_self_of_lt (Array.getElem?_eq_some_iff.mp hg).1

theorem getElem?_setGraph_ne {g' : GraphId} (hne : g ≠ g') (x : Option ModuleGraph) :
    (h.setGraph g x).graphs[g'.index]? = h.graphs[g'.index]? :=
  Array.getElem?_setIfInBounds_ne fun heq => hne (congrArg GraphId.mk heq)

/-- A step does to a module graph what is listed. -/
theorem ScopeStep.graphStep (hs : h.ScopeStep h') (g : GraphId) : GraphStep h h' g := by
  cases hs with
  | keep _ hgraphs => exact .keep (by rw [hgraphs])
  | enclose _ => exact .keep rfl
  | record _ _ => exact .keep rfl
  | newGraph =>
    have hpush : h.newGraph.2.graphs[g.index]? =
        if g.index = h.graphs.size then some (some .empty) else h.graphs[g.index]? :=
      Array.getElem?_push
    by_cases heq : g.index = h.graphs.size
    · exact .create (Array.getElem?_eq_none (Nat.le_of_eq heq.symm)) (by rw [hpush, if_pos heq])
    · exact .keep (by rw [hpush, if_neg heq])
  | dropGraph g' =>
    by_cases heq : g' = g
    · subst heq
      rcases hold : h.graphs[g'.index]? with _ | old
      · refine .keep ?_
        rw [hold, setGraph, Array.getElem?_setIfInBounds, if_pos rfl,
          if_neg (Nat.not_lt.mpr (Array.getElem?_eq_none_iff.mp hold))]
      · exact .drop (getElem?_setGraph_self hold none)
    · exact .keep (getElem?_setGraph_ne heq none)
  | @graph g' graph graph' hg hstep =>
    by_cases heq : g' = g
    · subst heq
      have hold := getElem?_graphs.mp hg
      exact .change hold hstep (getElem?_setGraph_self hold _)
    · exact .keep (getElem?_setGraph_ne heq _)
  | @instantiate g' graph m entry hg hm hnew outer =>
    by_cases heq : g' = g
    · subst heq
      have hold := getElem?_graphs.mp hg
      refine .instantiate hold hm hnew ⟨∅, some outer, ?_⟩ (getElem?_setGraph_self hold _)
      exact Array.getElem?_push_size
    · exact .keep (getElem?_setGraph_ne heq _)

/-- A dropped graph stays dropped. -/
theorem ScopeStep.dropped (hs : h.ScopeStep h') (hdropped : h.graphs[g.index]? = some none) :
    h'.graphs[g.index]? = some none := by
  cases hs.graphStep g with
  | keep hg => rw [hg, hdropped]
  | create hold _ => cases hold.symm.trans hdropped
  | drop hg => exact hg
  | change hold _ _ => cases hold.symm.trans hdropped
  | instantiate hold _ _ _ _ => cases hold.symm.trans hdropped

theorem moduleEnvironment?_of_graph {graph : ModuleGraph}
    (hg : h.graphs[g.index]? = some (some graph)) (m : ModuleId) :
    h.moduleEnvironment? g m = graph.environment? m := by
  rw [moduleEnvironment?, getElem?_graphs.mpr hg, Option.bind_some]

/-- A module keeps its environment until its graph is dropped. -/
theorem ScopeStep.moduleEnvironment_of (hs : h.ScopeStep h')
    (hm : h.moduleEnvironment? g m = some e) :
    h'.graphs[g.index]? = some none ∨ h'.moduleEnvironment? g m = some e := by
  cases hs.graphStep g with
  | keep hg => exact .inr (by rwa [moduleEnvironment?, graph?, hg])
  | create hold _ =>
    rw [moduleEnvironment?, graph?, hold] at hm
    cases hm
  | drop hg => exact .inl hg
  | change hold hstep hg =>
    rw [moduleEnvironment?_of_graph hold] at hm
    exact .inr (by rw [moduleEnvironment?_of_graph hg, hstep.environment?, hm])
  | @instantiate graph n entry hold hn hnew e' _ hg =>
    rw [moduleEnvironment?_of_graph hold] at hm
    -- the module that gets an environment is another one, for it had none
    have hne : m ≠ n := by
      rintro rfl
      rw [ModuleGraph.environment?, hn, Option.bind_some, hnew] at hm
      cases hm
    exact .inr (by
      rw [moduleEnvironment?_of_graph hg, ModuleGraph.environment?_update_ne hne, hm])

/-- Modules get environments of modules of their graph. -/
theorem ScopeStep.housed (hs : h.ScopeStep h') (hh : h.Housed) : h'.Housed := by
  intro g m e hm
  have hold : h.moduleEnvironment? g m = some e → h'.IsModule g e := fun hm =>
    hs.isModule (hh g m e hm)
  cases hs.graphStep g with
  | keep hg =>
    refine hold ?_
    rwa [moduleEnvironment?, graph?, ← hg]
  | create _ hg =>
    rw [moduleEnvironment?_of_graph hg] at hm
    cases hm
  | drop hg =>
    rw [moduleEnvironment?, graph?, hg] at hm
    cases hm
  | change hgraph hstep hg =>
    rw [moduleEnvironment?_of_graph hg, hstep.environment?] at hm
    exact hold (by rw [moduleEnvironment?_of_graph hgraph, hm])
  | @instantiate graph n entry hgraph hn _ e' he hg =>
    rw [moduleEnvironment?_of_graph hg] at hm
    by_cases heq : m = n
    · subst heq
      rw [ModuleGraph.environment?_update_self hn] at hm
      exact Option.some.inj hm ▸ he
    · rw [ModuleGraph.environment?_update_ne heq] at hm
      exact hold (by rw [moduleEnvironment?_of_graph hgraph, hm])

/-! ## Runs -/

variable {whole : Bool}

theorem Changes.housed (hc : Changes whole h h') (hh : h.Housed) : h'.Housed :=
  hc.scope_induction (fun hh hs => hs.housed hh) hh

theorem Changes.isModule (hc : Changes whole h h') (he : h.IsModule g e) : h'.IsModule g e :=
  hc.scope_induction (fun he hs => hs.isModule he) he

theorem Changes.fixed (hc : Changes whole h h') {b : Binding} (hb : h.binding? e name = some b)
    (hfixed : b.Fixed) : h'.binding? e name = some b :=
  hc.scope_induction (fun hb hs => hs.fixed hb hfixed) hb

/-- A module keeps its environment as long as its graph is there. -/
theorem Changes.moduleEnvironment_of (hc : Changes whole h h')
    (hm : h.moduleEnvironment? g m = some e) (halive : h'.graph? g ≠ none) :
    h'.moduleEnvironment? g m = some e := by
  have hlater : h'.graphs[g.index]? = some none ∨ h'.moduleEnvironment? g m = some e := by
    refine hc.scope_induction (P := fun h => h.graphs[g.index]? = some none ∨
      h.moduleEnvironment? g m = some e) ?_ (.inr hm)
    rintro h h' (hdropped | hm) hs
    · exact .inl (hs.dropped hdropped)
    · exact hs.moduleEnvironment_of hm
  refine hlater.resolve_left fun hdropped => halive ?_
  rw [graph?, hdropped]
  rfl

end Heap

end Ecma
