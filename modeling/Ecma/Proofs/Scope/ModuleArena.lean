import Ecma.Proofs.Scope.Persistence

/-!
# Module graphs as arenas

A module graph is a list of modules, whose places are their identities, and an index of
specifiers. The two are inverse to each other (`ModuleGraph.Indexed`): a specifier is found at
a place exactly when the module there has it. Adding a module extends both, the list at its end
and the index at a specifier that was free. All other changes are made in the place of one
module, which keeps its specifier. So whatever a step does to a graph, the index stays right
(`Heap.ScopeStep.indexed`), and so it does along every run of calls (`Heap.indexed_after`).

A module gets its environment once. Whatever is called later, on it or on other modules, it
keeps that environment, and instantiating it again gives it back.
-/

namespace Ecma

namespace ModuleGraph

variable {graph : ModuleGraph} {m n : ModuleId} {e : ModuleEntry} {s : String}

/-! ## Modules and specifiers of a graph -/

theorem entry_eq_value_iff : graph.entry m = .value e ↔ graph.modules[m.index]? = some e := by
  constructor
  · exact entry_eq_value
  · intro hm
    rw [entry, hm]

/-- The places of a graph are those before its size. -/
theorem registered_iff : (∃ e, graph.entry m = .value e) ↔ m.index < graph.size := by
  simp only [entry_eq_value_iff, List.getElem?_eq_some_iff, size]
  constructor
  · rintro ⟨e, hlt, -⟩
    exact hlt
  · intro hlt
    exact ⟨_, hlt, rfl⟩

/-- The index and the list of modules are inverse to each other. -/
def Indexed (graph : ModuleGraph) : Prop :=
  ∀ s m, graph.lookup? s = some m ↔ ∃ e, graph.entry m = .value e ∧ e.specifier = s

theorem indexed_empty : empty.Indexed := by
  intro s m
  simp [empty, lookup?, entry_eq_value_iff]

/-- No two modules have the same specifier. -/
theorem Indexed.specifier_inj (h : graph.Indexed) {f : ModuleEntry} (hm : graph.entry m = .value e)
    (hn : graph.entry n = .value f) (heq : e.specifier = f.specifier) : m = n := by
  have hlookup := (h e.specifier m).mpr ⟨e, hm, rfl⟩
  have hlookup' := (h e.specifier n).mpr ⟨f, hn, heq.symm⟩
  exact Option.some.inj (hlookup.symm.trans hlookup')

/-! ## Adding a module -/

/-- The modules after adding: the old ones where they were, and a new one at the end if the
specifier was free. -/
theorem entry_add : (graph.add s).2.entry n = .value e ↔
    graph.entry n = .value e ∨
      graph.lookup? s = none ∧ n = ⟨graph.size⟩ ∧ e = ⟨s, .uninstantiated, none⟩ := by
  rw [add]
  rcases hold : graph.lookup? s with _ | m
  · have hplace : n = ⟨graph.size⟩ ↔ n.index = graph.size :=
      ⟨congrArg ModuleId.index, congrArg ModuleId.mk⟩
    simp only [entry_eq_value_iff, hplace, true_and]
    by_cases hlt : n.index < graph.size
    · rw [List.getElem?_append_left hlt]
      exact (or_iff_left fun hnew => Nat.ne_of_lt hlt hnew.1).symm
    · have hge : graph.size ≤ n.index := Nat.le_of_not_lt hlt
      have hend : n.index - graph.modules.length = 0 ↔ n.index = graph.size :=
        Nat.sub_eq_zero_iff_le.trans ⟨fun hle => Nat.le_antisymm hle hge, Nat.le_of_eq⟩
      rw [List.getElem?_append_right hge, List.getElem?_eq_none hge, List.getElem?_singleton]
      simp [hend, eq_comm]
  · simp

theorem lookup?_add {s' : String} : (graph.add s).2.lookup? s' = some m ↔
    graph.lookup? s' = some m ∨ graph.lookup? s = none ∧ s' = s ∧ m = ⟨graph.size⟩ := by
  rw [add]
  rcases hold : graph.lookup? s with _ | m'
  · exact (Dictionary.get?_insert_eq_some hold).trans (by simp [lookup?])
  · simp

/-- Adding answers the module that is found under the specifier from then on. -/
theorem lookup?_add_self (graph : ModuleGraph) (s : String) :
    (graph.add s).2.lookup? s = some (graph.add s).1 := by
  rw [lookup?_add, add]
  rcases hold : graph.lookup? s with _ | m <;> simp

theorem size_add (graph : ModuleGraph) (s : String) :
    (graph.add s).2.size = if graph.lookup? s = none then graph.size + 1 else graph.size := by
  rw [add]
  rcases hold : graph.lookup? s with _ | m <;> simp [size]

theorem Indexed.add (h : graph.Indexed) (s : String) : (graph.add s).2.Indexed := by
  intro s' m
  simp only [lookup?_add, entry_add, h s' m, or_and_right, exists_or]
  refine or_congr_right ?_
  constructor
  · rintro ⟨hnew, rfl, rfl⟩
    exact ⟨_, ⟨hnew, rfl, rfl⟩, rfl⟩
  · rintro ⟨e, ⟨hnew, rfl, rfl⟩, rfl⟩
    exact ⟨hnew, rfl, rfl⟩

/-! ## Changing one module -/

/-- One module of the graph has become `e`, all others are what they were. -/
structure Replaced (graph graph' : ModuleGraph) (m : ModuleId) (e : ModuleEntry) : Prop where
  self : graph'.entry m = .value e
  other : ∀ n, n ≠ m → graph'.entry n = graph.entry n

theorem replaced_update (hm : graph.entry m = .value e) (f : ModuleEntry → ModuleEntry) :
    graph.Replaced (graph.update m f) m (f e) where
  self := by
    rw [entry_eq_value_iff] at hm ⊢
    rw [update, List.getElem?_modify_eq, hm]
    rfl
  other n hne := by
    have hindex : m.index ≠ n.index := fun heq => hne (congrArg ModuleId.mk heq.symm)
    rw [entry, entry, update, List.getElem?_modify_ne _ _ hindex]

/-- The index concerns specifiers only. -/
theorem Indexed.update (h : graph.Indexed) (m : ModuleId) {f : ModuleEntry → ModuleEntry}
    (hf : ∀ e, (f e).specifier = e.specifier) : (graph.update m f).Indexed := by
  intro s n
  refine (h s n).trans ?_
  simp only [entry_eq_value_iff, ModuleGraph.update, List.getElem?_modify]
  rcases graph.modules[n.index]? with _ | e
  · simp
  · by_cases heq : m.index = n.index <;> simp [heq, hf]

end ModuleGraph

namespace Heap

variable {h h' : Heap} {g : GraphId} {graph : ModuleGraph} {m : ModuleId} {entry : ModuleEntry}
  {e : EnvironmentId}

/-- The graph, if it is there, is indexed. -/
def Indexed (h : Heap) (g : GraphId) : Prop := ∀ graph, h.graph? g = some graph → graph.Indexed

/-- Whatever a step does to a graph, it stays indexed. -/
theorem ScopeStep.indexed (hs : h.ScopeStep h') (hi : h.Indexed g) : h'.Indexed g := by
  intro graph' hg'
  rw [getElem?_graphs] at hg'
  have hthere : ∀ {old new}, h.graphs[g.index]? = some (some old) →
      h'.graphs[g.index]? = some (some new) → old.Indexed ∧ graph' = new := fun hold hnew =>
    ⟨hi _ (getElem?_graphs.mpr hold), Option.some.inj (Option.some.inj (hg'.symm.trans hnew))⟩
  cases hs.graphStep g with
  | keep hg => exact hi graph' (getElem?_graphs.mpr (hg.symm.trans hg'))
  | create _ hg =>
    obtain rfl := Option.some.inj (Option.some.inj (hg'.symm.trans hg))
    exact ModuleGraph.indexed_empty
  | drop hg => cases hg'.symm.trans hg
  | change hold hstep hg =>
    obtain ⟨hindexed, rfl⟩ := hthere hold hg
    cases hstep with
    | add specifier => exact hindexed.add specifier
    | setStatus m status => exact hindexed.update m fun _ => rfl
  | @instantiate _ m _ hold _ _ _ _ hg =>
    obtain ⟨hindexed, rfl⟩ := hthere hold hg
    exact hindexed.update m fun _ => rfl

/-! ## One call -/

theorem graph?_newGraph (h : Heap) : h.newGraph.2.graph? h.newGraph.1 = some .empty :=
  getElem?_graphs.mpr Array.getElem?_push_size

theorem graph?_setGraph (hg : h.graph? g = some graph) (x : Option ModuleGraph) :
    (h.setGraph g x).graph? g = x := by
  rw [graph?, getElem?_setGraph_self (getElem?_graphs.mp hg), Option.join_some]

theorem graph_of_graph? (hg : h.graph? g = some graph) : h.graph g = .value graph := by
  rw [Heap.graph, hg]

theorem addModule_eq (hg : h.graph? g = some graph) (s : String) :
    h.addModule g s = .value ((graph.add s).1, h.setGraph g (some (graph.add s).2)) := by
  rw [addModule, graph_of_graph? hg]
  rfl

theorem setStatus_eq (hg : h.graph? g = some graph) (hm : graph.entry m = .value entry)
    (status : ModuleStatus) : h.setStatus g m status =
      .value (h.setGraph g (some (graph.update m fun e => { e with status }))) := by
  rw [setStatus, graph_of_graph? hg, Outcome.value_bind, hm]
  rfl

theorem instantiate_of_some (hg : h.graph? g = some graph) (hm : graph.entry m = .value entry)
    (he : entry.environment = some e) (outer : EnvironmentId) :
    h.instantiate g m outer = .value (e, h) := by
  rw [instantiate, graph_of_graph? hg, Outcome.value_bind, hm, Outcome.value_bind, he]
  rfl

theorem instantiate_of_none (hg : h.graph? g = some graph) (hm : graph.entry m = .value entry)
    (hnew : entry.environment = none) (outer : EnvironmentId) :
    h.instantiate g m outer = .value (⟨h.environments.size⟩,
      (h.enclose ⟨.module ∅ g, some outer⟩).2.setGraph g (some (graph.update m fun entry =>
        { entry with environment := some ⟨h.environments.size⟩ }))) := by
  rw [instantiate, graph_of_graph? hg, Outcome.value_bind, hm, Outcome.value_bind, hnew]
  rfl

/-- A module of the graph can be instantiated. The answer is its environment from then on: the
one that it had, or a new one. -/
theorem instantiate_replaces (hg : h.graph? g = some graph) (hm : graph.entry m = .value entry)
    (outer : EnvironmentId) : ∃ e h' graph', h.instantiate g m outer = .value (e, h') ∧
      h'.graph? g = some graph' ∧ graph.Replaced graph' m { entry with environment := some e } ∧
      (entry.environment = some e ∨ entry.environment = none ∧ e.index = h.environments.size ∧
        h'.environments[e.index]? = some ⟨.module ∅ g, some outer⟩) := by
  rcases he : entry.environment with _ | e
  · exact ⟨_, _, _, instantiate_of_none hg hm he outer, graph?_setGraph hg _,
      ModuleGraph.replaced_update hm fun entry =>
        { entry with environment := some ⟨h.environments.size⟩ },
      .inr ⟨rfl, rfl, Array.getElem?_push_size⟩⟩
  · refine ⟨e, h, graph, instantiate_of_some hg hm he outer, hg, ⟨?_, fun _ _ => rfl⟩, .inl rfl⟩
    rw [hm, ← he]

theorem moduleEnvironment?_eq_some (hg : h.graph? g = some graph) :
    h.moduleEnvironment? g m = some e ↔
      ∃ entry, graph.entry m = .value entry ∧ entry.environment = some e := by
  rw [moduleEnvironment?, hg, Option.bind_some, ModuleGraph.environment?, Option.bind_eq_some_iff]
  simp only [ModuleGraph.entry_eq_value_iff]

end Heap

/-! ## Runs of calls -/

/-- A call on a module graph. -/
inductive ModuleCall where
  | add (specifier : String)
  | setStatus (m : ModuleId) (status : ModuleStatus)
  | instantiate (m : ModuleId) (outer : EnvironmentId)

namespace ModuleCall

/-- Carry out a call on a graph of the heap. -/
def apply (g : GraphId) (h : Heap) : ModuleCall → Outcome Heap
  | add specifier => do return (← h.addModule g specifier).2
  | setStatus m status => h.setStatus g m status
  | instantiate m outer => do return (← h.instantiate g m outer).2

/-- The heap after a call; one that is refused leaves it as it was. -/
def next (g : GraphId) (h : Heap) (c : ModuleCall) : Heap :=
  match c.apply g h with
  | .value h' => h'
  | .failure _ => h
  | .stopped _ => h

variable {g : GraphId} {h h' : Heap} {c : ModuleCall}

theorem step_of_value (hc : c.apply g h = .value h') : h.ScopeStep h' := by
  cases c with
  | add specifier =>
    obtain ⟨⟨m, h₁⟩, hadd, hres⟩ := Outcome.bind_eq_value hc
    obtain rfl := Outcome.value.inj hres
    exact (Heap.scopes_addModule hadd).step
  | setStatus m status => exact (Heap.scopes_setStatus hc).step
  | instantiate m outer =>
    obtain ⟨⟨e, h₁⟩, hinstantiate, hres⟩ := Outcome.bind_eq_value hc
    obtain rfl := Outcome.value.inj hres
    exact (Heap.scopes_instantiate hinstantiate).step

/-- After a call the graph is there. -/
theorem isSome_of_value (hc : c.apply g h = .value h') : (h'.graph? g).isSome := by
  cases c with
  | add specifier =>
    obtain ⟨⟨m, h₁⟩, hadd, hres⟩ := Outcome.bind_eq_value hc
    obtain ⟨graph, hg, -⟩ := Outcome.bind_eq_value hadd
    replace hg := Heap.graph_eq_value hg
    rw [apply, Heap.addModule_eq hg] at hc
    obtain rfl := Outcome.value.inj hc
    rw [Heap.graph?_setGraph hg, Option.isSome_some]
  | setStatus m status =>
    obtain ⟨graph, hg, hres⟩ := Outcome.bind_eq_value hc
    obtain ⟨entry, hm, -⟩ := Outcome.bind_eq_value hres
    replace hg := Heap.graph_eq_value hg
    rw [apply, Heap.setStatus_eq hg hm] at hc
    obtain rfl := Outcome.value.inj hc
    rw [Heap.graph?_setGraph hg, Option.isSome_some]
  | instantiate m outer =>
    obtain ⟨⟨e, h₁⟩, hinstantiate, -⟩ := Outcome.bind_eq_value hc
    obtain ⟨graph, hg, hres⟩ := Outcome.bind_eq_value hinstantiate
    obtain ⟨entry, hm, -⟩ := Outcome.bind_eq_value hres
    obtain ⟨e', h₂, graph', heq, hg', -⟩ :=
      Heap.instantiate_replaces (Heap.graph_eq_value hg) hm outer
    rw [apply, heq] at hc
    obtain rfl := Outcome.value.inj hc
    rw [hg', Option.isSome_some]

/-- A call takes a step, or none if it is refused, and does not drop the graph. -/
theorem step_next (hg : (h.graph? g).isSome) (c : ModuleCall) :
    h.ScopeStep (c.next g h) ∧ ((c.next g h).graph? g).isSome := by
  rw [next]
  split
  · next hc => exact ⟨step_of_value hc, isSome_of_value hc⟩
  · exact ⟨.keep rfl rfl, hg⟩
  · exact ⟨.keep rfl rfl, hg⟩

end ModuleCall

namespace Heap

variable {h : Heap} {g : GraphId}

/-- The heap after a run of calls on a graph. -/
def after (h : Heap) (g : GraphId) (calls : List ModuleCall) : Heap :=
  calls.foldl (ModuleCall.next g) h

/-- What all steps keep that do not drop the graph, runs of calls keep, and they do not drop
it. -/
theorem after_induction {P : Heap → Prop}
    (hstep : ∀ h h', P h → h.ScopeStep h' → (h'.graph? g).isSome → P h')
    (hg : (h.graph? g).isSome) (hP : P h) (calls : List ModuleCall) :
    ((h.after g calls).graph? g).isSome ∧ P (h.after g calls) := by
  induction calls generalizing h with
  | nil => exact ⟨hg, hP⟩
  | cons c calls ih =>
    obtain ⟨hs, hg'⟩ := ModuleCall.step_next hg c
    exact ih hg' (hstep _ _ hP hs hg')

theorem indexed_after (hg : (h.graph? g).isSome) (hi : h.Indexed g) (calls : List ModuleCall) :
    ∃ graph, (h.after g calls).graph? g = some graph ∧ graph.Indexed := by
  obtain ⟨halive, hindexed⟩ :=
    after_induction (P := (Indexed · g)) (fun _ _ hi hs _ => hs.indexed hi) hg hi calls
  obtain ⟨graph, hgraph⟩ := Option.isSome_iff_exists.mp halive
  exact ⟨graph, hgraph, hindexed graph hgraph⟩

/-- A module that has an environment keeps it, and is not instantiated again. -/
theorem instantiate_after {m : ModuleId} {e : EnvironmentId}
    (he : h.moduleEnvironment? g m = some e) (calls : List ModuleCall) (outer : EnvironmentId) :
    (h.after g calls).moduleEnvironment? g m = some e ∧
      (h.after g calls).instantiate g m outer = .value (e, h.after g calls) := by
  obtain ⟨graph, hg, -⟩ := Option.bind_eq_some_iff.mp he
  obtain ⟨halive, he'⟩ := after_induction (P := (·.moduleEnvironment? g m = some e))
    (fun h h' he hs halive => (hs.moduleEnvironment_of he).resolve_left fun hdropped => by
      rw [graph?, hdropped] at halive
      cases halive) (Option.isSome_of_eq_some hg) he calls
  obtain ⟨graph', hg'⟩ := Option.isSome_iff_exists.mp halive
  obtain ⟨entry, hm, hentry⟩ := (moduleEnvironment?_eq_some hg').mp he'
  exact ⟨he', instantiate_of_some hg' hm hentry outer⟩

/-- **A module graph is an arena.** After any run of calls on a new graph, modules and
specifiers are in bijection, by the index. Adding a module leaves those that are there as
they are, and makes a new one exactly when the specifier is new. Setting the status of a
module or instantiating it changes this module only. From the first time that a module is
instantiated it has the environment that was made then, and every later call answers it. -/
theorem modules_form_arena (h : Heap) (calls : List ModuleCall) :
    let g := h.newGraph.1
    let h₁ := h.newGraph.2.after g calls
    ∃ graph, h₁.graph? g = some graph ∧
      (∀ m, (∃ entry, graph.entry m = .value entry) ↔ m.index < graph.size) ∧
      (∀ s m, graph.lookup? s = some m ↔
        ∃ entry, graph.entry m = .value entry ∧ entry.specifier = s) ∧
      (∀ m n entry entry', graph.entry m = .value entry → graph.entry n = .value entry' →
        entry.specifier = entry'.specifier → m = n) ∧
      (∀ s, ∃ m h₂ graph', h₁.addModule g s = .value (m, h₂) ∧ h₂.graph? g = some graph' ∧
        graph'.lookup? s = some m ∧
        (∀ n entry, graph.entry n = .value entry → graph'.entry n = .value entry) ∧
        graph'.size = if graph.lookup? s = none then graph.size + 1 else graph.size) ∧
      ∀ m entry, graph.entry m = .value entry →
        (∀ status, ∃ h₂ graph', h₁.setStatus g m status = .value h₂ ∧
          h₂.graph? g = some graph' ∧ graph.Replaced graph' m { entry with status }) ∧
        ∀ outer, ∃ e h₂ graph', h₁.instantiate g m outer = .value (e, h₂) ∧
          h₂.graph? g = some graph' ∧
          graph.Replaced graph' m { entry with environment := some e } ∧
          (entry.environment = some e ∨ entry.environment = none ∧
            e.index = h₁.environments.size ∧
            h₂.environments[e.index]? = some ⟨.module ∅ g, some outer⟩) ∧
          ∀ later outer', (h₂.after g later).moduleEnvironment? g m = some e ∧
            (h₂.after g later).instantiate g m outer' = .value (e, h₂.after g later) := by
  intro g h₁
  have hnew : h.newGraph.2.graph? g = some .empty := graph?_newGraph h
  have hempty : h.newGraph.2.Indexed g := by
    intro graph hg
    obtain rfl := Option.some.inj (hnew.symm.trans hg)
    exact ModuleGraph.indexed_empty
  obtain ⟨graph, hg, hindexed⟩ := indexed_after (Option.isSome_of_eq_some hnew) hempty calls
  refine ⟨graph, hg, fun _ => ModuleGraph.registered_iff, hindexed,
    fun _ _ _ _ => hindexed.specifier_inj, ?add, fun m entry hm => ⟨?setStatus, ?instantiate⟩⟩
  case add =>
    intro s
    refine ⟨_, _, _, addModule_eq hg s, graph?_setGraph hg _, graph.lookup?_add_self s, ?_,
      graph.size_add s⟩
    intro n entry hn
    exact ModuleGraph.entry_add.mpr (.inl hn)
  case setStatus =>
    intro status
    exact ⟨_, _, setStatus_eq hg hm status, graph?_setGraph hg _,
      ModuleGraph.replaced_update hm fun entry => { entry with status }⟩
  case instantiate =>
    intro outer
    obtain ⟨e, h₂, graph', hinstantiate, hg', hreplaced, hanswer⟩ :=
      instantiate_replaces hg hm outer
    have he : h₂.moduleEnvironment? g m = some e :=
      (moduleEnvironment?_eq_some hg').mpr ⟨_, hreplaced.self, rfl⟩
    exact ⟨e, h₂, graph', hinstantiate, hg', hreplaced, hanswer, instantiate_after he⟩

end Heap

end Ecma
