import Ecma.Object.Array
import Ecma.Realm.Intrinsic
import Ecma.Scope.ModuleGraph

/-!
# The heap

Objects, environments and module graphs live in grow-only arrays, so that an
identity is a stable index and a new one is the present size. A dropped module
graph leaves its place empty. The functions here are total: what was never
allocated reads as a fault and is not changed.
-/

namespace Ecma

/-- An object whose methods are supplied from outside. -/
structure Exotic where
  host : HostId
  traits : Traits
  deriving DecidableEq, Repr

/-- What stands at the place of an object. -/
inductive Cell where
  | object (o : Object)
  | exotic (x : Exotic)

/-- The traits of what stands at a place. -/
def Cell.traits : Cell → Traits
  | object o => o.traits
  | exotic x => x.traits

/-- The prototype that is known without asking. An exotic object has to be asked. -/
def Cell.prototype? : Cell → Option ObjectId
  | object o => o.prototype
  | exotic _ => none

/-- A new object, described by what can be chosen about it. -/
inductive Blueprint where
  | ordinary (prototype : Option ObjectId) (className : String) (primitive : Option Value)
      (isHtmlDda : Bool)
  | array (length : Nat) (prototype : Option ObjectId)
  | function (name : String) (length : Nat) (call : CodeId) (construct : Option CodeId)
  | exotic (x : Exotic)

/-- Everything that programs create. -/
structure Heap where
  objects : Array Cell
  environments : Array Environment
  graphs : Array (Option ModuleGraph)
  symbols : SymbolTable
  deriving Inhabited

namespace Blueprint

/-- A property of a new function. -/
def functionProperty (v : Value) : Property := .data v false false true

/-- The object that a blueprint describes. -/
def build : Blueprint → Outcome Cell
  | ordinary prototype className primitive isHtmlDda =>
    .value (.object (.new (.ordinary className primitive isHtmlDda) prototype))
  | array length prototype =>
    if PropertyKey.maxArrayLength < length then .raise .invalidArrayLength
    else .value (.object (.newArray length (some (prototype.getD Intrinsic.arrayPrototype.id))))
  | function name length call construct =>
    let o := Object.new (.function name call construct) (some Intrinsic.functionPrototype.id)
    let o := o.put (.string "length") (functionProperty (.number (.ofNat length)))
    .value (.object (o.put (.string "name") (functionProperty (.string name))))
  | exotic x => .value (.exotic x)

end Blueprint

namespace Heap

/-- The heap of a new realm. -/
def initial : Heap where
  objects := (Intrinsic.all.map fun i => Cell.object i.object).toArray
  environments := #[]
  graphs := #[]
  symbols := .initial

/-! ## Objects -/

/-- What stands at the place of an object. -/
def cell (h : Heap) (o : ObjectId) : Outcome Cell :=
  match h.objects[o.index]? with
  | some c => .value c
  | none => .fault .dangling

/-- The class of an object, for diagnostics. -/
def className (h : Heap) (o : ObjectId) : String :=
  match h.objects[o.index]? with
  | some c => c.traits.className
  | none => ""

/-- Put a new object into the heap. -/
def allocate (h : Heap) (c : Cell) : ObjectId × Heap :=
  (⟨h.objects.size⟩, { h with objects := h.objects.push c })

/-- Create an object from a blueprint. It inherits from an object that is there, or from
none. -/
def create (h : Heap) (b : Blueprint) : Outcome (ObjectId × Heap) := do
  let c ← b.build
  if c.prototype?.all fun p => p.index < h.objects.size then return h.allocate c
  else .fault .dangling

/-- Change a cell that is an object of the model. -/
def modifyCell (f : Object → Object) : Cell → Cell
  | .object o => .object (f o)
  | .exotic x => .exotic x

/-- Change the state of an object. -/
def modifyObject (h : Heap) (o : ObjectId) (f : Object → Object) : Heap :=
  { h with objects := h.objects.modify o.index (modifyCell f) }

/-! ## Environments -/

/-- An environment. -/
def environment (h : Heap) (e : EnvironmentId) : Outcome Environment :=
  match h.environments[e.index]? with
  | some env => .value env
  | none => .fault .dangling

/-- Put a new environment into the heap. -/
def enclose (h : Heap) (env : Environment) : EnvironmentId × Heap :=
  (⟨h.environments.size⟩, { h with environments := h.environments.push env })

/-- Change the record of an environment. -/
def setRecord (h : Heap) (e : EnvironmentId) (r : ScopeRecord) : Heap :=
  { h with environments := h.environments.modify e.index fun env => { env with record := r } }

/-- Carry out a change of the bindings of an environment. -/
def bindings (h : Heap) (e : EnvironmentId) (c : BindingCommand) : Outcome (Bool × Heap) := do
  let env ← h.environment e
  match env.record.bindings? with
  | some table =>
    let (answer, table) ← c.apply table
    return (answer, h.setRecord e (env.record.setBindings table))
  | none => .fault .dangling

/-- Give `this` its value in the environment of a function. -/
def bindThis (h : Heap) (e : EnvironmentId) (v : Value) : Outcome Heap := do
  let env ← h.environment e
  match env.record with
  | .function f =>
    let this ← f.this.bind v
    return h.setRecord e (.function { f with this := this })
  | _ => .fault .dangling

/-- Change what a global environment remembers of its variables. -/
def modifyGlobal (h : Heap) (e : EnvironmentId) (f : GlobalScope → GlobalScope) :
    Outcome Heap := do
  let env ← h.environment e
  match env.record with
  | .global g => return h.setRecord e (.global (f g))
  | _ => .fault .dangling

/-! ## Module graphs -/

/-- A module graph, unless it was dropped. -/
def graph? (h : Heap) (g : GraphId) : Option ModuleGraph := h.graphs[g.index]?.join

/-- A module graph that was not dropped. -/
def graph (h : Heap) (g : GraphId) : Outcome ModuleGraph :=
  match h.graph? g with
  | some graph => .value graph
  | none => .fault .dangling

/-- Put a new module graph into the heap. -/
def newGraph (h : Heap) : GraphId × Heap :=
  (⟨h.graphs.size⟩, { h with graphs := h.graphs.push (some .empty) })

/-- Replace a module graph; `none` drops it. -/
def setGraph (h : Heap) (g : GraphId) (graph : Option ModuleGraph) : Heap :=
  { h with graphs := h.graphs.setIfInBounds g.index graph }

/-- Add a module to a graph. -/
def addModule (h : Heap) (g : GraphId) (specifier : String) : Outcome (ModuleId × Heap) := do
  let (m, graph) := (← h.graph g).add specifier
  return (m, h.setGraph g (some graph))

/-- Set how far a module has come. -/
def setStatus (h : Heap) (g : GraphId) (m : ModuleId) (s : ModuleStatus) : Outcome Heap := do
  let graph ← h.graph g
  let _ ← graph.entry m
  return h.setGraph g (some (graph.update m fun e => { e with status := s }))

/-- The environment of a module, which is made under `outer` if it has none. -/
def instantiate (h : Heap) (g : GraphId) (m : ModuleId) (outer : EnvironmentId) :
    Outcome (EnvironmentId × Heap) := do
  let graph ← h.graph g
  match (← graph.entry m).environment with
  | some e => return (e, h)
  | none =>
    let (e, h) := h.enclose ⟨.module ∅ g, some outer⟩
    return (e, h.setGraph g (some (graph.update m fun entry =>
      { entry with environment := some e })))

end Heap

end Ecma
