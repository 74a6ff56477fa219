import Ecma.Operation.Conversion

/-!
# Names in one environment

What a name means in an environment depends on its record. A table of bindings
answers by its own rules, an object by its properties; a global environment asks
its table first and its object for names that the table does not have. An import
is followed from module to module until a binding is reached that is none.
-/

namespace Ecma

namespace Heap

/-- Number of bindings in all tables. -/
def bindingCount (h : Heap) : Nat :=
  h.environments.foldl (fun n env => n + (env.record.bindings?.map Dictionary.size).getD 0) 0

/-- The binding of another module that an import stands for: its environment and
its name there. `name` is the import, for a module that has no environment. -/
def importTarget (h : Heap) (g : GraphId) (m : ModuleId) (name : String) :
    Outcome EnvironmentId :=
  match h.graph? g with
  | none => .raise (.notDefined name)
  | some graph => do
    match (← graph.entry m).environment with
    | some e => return e
    | none => .raise (.notDefined name)

/-- The value of a name in a module, imports being followed for at most `fuel`
links. -/
def readModule (h : Heap) : Nat → EnvironmentId → String → Outcome Value
  | 0, _, _ => .stopped .exhausted
  | fuel + 1, e, name => do
    match (← h.environment e).record with
    | .module table g =>
      match table.imported? name with
      | some (m, target) =>
        let next ← h.importTarget g m name
        h.readModule fuel next target
      | none => table.read name
    | _ => .fault .dangling

end Heap

namespace Program

variable {σ : Type}

/-- An environment. -/
def environment (e : EnvironmentId) : Program σ Environment := do
  ofOutcome ((← heap).environment e)

/-- Change the bindings of an environment. -/
def changeBindings (e : EnvironmentId) (c : BindingCommand) : Program σ Bool :=
  effect (.bindings e c)

/-! ## Object scopes -/

/-- Whether an object scope has a name. A `with` statement hides the names that
its object lists as unscopable. -/
def objectHas (s : ObjectScope) (name : String) : Program σ Bool := do
  if ← hasProperty s.object (.ofString name) then
    if s.isWith then
      match ← get s.object (.wellKnown .unscopables) with
      | .object hidden => return !(← toBoolean (← get hidden (.ofString name)))
      | _ => return true
    else return true
  else return false

/-- Create a name in an object scope. -/
def objectCreate (s : ObjectScope) (name : String) (deletable : Bool) : Program σ Unit :=
  definePropertyOrThrow s.object (.ofString name) (.data .undefined true true deletable)

/-- Assign a name in an object scope. -/
def objectAssign (s : ObjectScope) (name : String) (v : Value) (strict : Bool) :
    Program σ Unit := do
  let found ← hasProperty s.object (.ofString name)
  if !found && strict then raise (.notDefined name)
  else
    let _ ← set s.object (.ofString name) v strict
    return ()

/-- The value of a name in an object scope. -/
def objectRead (s : ObjectScope) (name : String) (strict : Bool) : Program σ Value := do
  if ← hasProperty s.object (.ofString name) then get s.object (.ofString name)
  else if strict then raise (.notDefined name)
  else return .undefined

/-! ## Environments -/

/-- Whether an environment has a name. -/
def hasBinding (e : EnvironmentId) (name : String) : Program σ Bool := do
  match (← environment e).record with
  | .object s => objectHas s name
  | .global g => if g.bindings.contains name then return true else objectHas g.objectScope name
  | .declarative b | .module b _ => return b.contains name
  | .function f => return f.bindings.contains name

/-- Add a binding to the table of an environment; in a global environment a second
declaration is a failure. -/
def createBinding (e : EnvironmentId) (r : ScopeRecord) (name : String) (b : Binding) :
    Program σ Unit := do
  match r with
  | .global g =>
    if g.bindings.contains name then raise (.alreadyDeclared name)
    else
      let _ ← changeBindings e (.create name b)
      return ()
  | _ =>
    let _ ← changeBindings e (.create name b)
    return ()

/-- Create a mutable name. -/
def createMutableBinding (e : EnvironmentId) (name : String) (deletable : Bool) :
    Program σ Unit := do
  match (← environment e).record with
  | .object s => objectCreate s name deletable
  | r => createBinding e r name (.newMutable deletable)

/-- Create an immutable name. -/
def createImmutableBinding (e : EnvironmentId) (name : String) (strict : Bool) :
    Program σ Unit := do
  match (← environment e).record with
  | .object _ => fault (.immutableObjectBinding name)
  | r => createBinding e r name (.newImmutable strict)

/-- Create a name that stands for a binding of another module. -/
def createImportBinding (e : EnvironmentId) (name : String) (m : ModuleId) (target : String) :
    Program σ Unit := do
  let _ ← changeBindings e (.create name (.newImport m target))
  return ()

/-- Give a name its first value. -/
def initializeBinding (e : EnvironmentId) (name : String) (v : Value) : Program σ Unit := do
  match (← environment e).record with
  | .object s => objectAssign s name v false
  | .global g =>
    if g.bindings.contains name then
      let _ ← changeBindings e (.init name v)
      return ()
    else objectAssign g.objectScope name v false
  | _ =>
    let _ ← changeBindings e (.init name v)
    return ()

/-- Assign a name. -/
def setMutableBinding (e : EnvironmentId) (name : String) (v : Value) (strict : Bool) :
    Program σ Unit := do
  match (← environment e).record with
  | .object s => objectAssign s name v strict
  | .global g =>
    if g.bindings.contains name then
      let _ ← changeBindings e (.assign name v strict)
      return ()
    else objectAssign g.objectScope name v strict
  | _ =>
    let _ ← changeBindings e (.assign name v strict)
    return ()

/-- The value of a name. -/
def getBindingValue (e : EnvironmentId) (name : String) (strict : Bool) : Program σ Value := do
  match (← environment e).record with
  | .object s => objectRead s name strict
  | .global g =>
    if g.bindings.contains name then ofOutcome (g.bindings.read name)
    else objectRead g.objectScope name strict
  | .declarative b => ofOutcome (b.read name)
  | .function f => ofOutcome (f.bindings.read name)
  | .module _ _ =>
    let h ← heap
    ofOutcome (h.readModule (h.bindingCount + 1) e name)

/-- Delete a name of the global object, and forget that it was a variable. -/
def deleteGlobal (e : EnvironmentId) (g : GlobalScope) (name : String) : Program σ Bool := do
  match ← getOwnProperty g.object (.ofString name) with
  | some _ =>
    let deleted ← delete g.object (.ofString name)
    if deleted then effect (.forgetVar e name)
    return deleted
  | none => return true

/-- Delete a name. -/
def deleteBinding (e : EnvironmentId) (name : String) : Program σ Bool := do
  match (← environment e).record with
  | .object s => delete s.object (.ofString name)
  | .global g =>
    if g.bindings.contains name then changeBindings e (.delete name) else deleteGlobal e g name
  | .module _ _ => fault (.moduleBindingDeleted name)
  | .declarative _ | .function _ => changeBindings e (.delete name)

/-! ## Functions -/

/-- Give `this` its value in the environment of a function. -/
def bindThisValue (e : EnvironmentId) (v : Value) : Program σ Unit := effect (.bindThis e v)

/-- The value of `this` in an environment that has one. -/
def getThisBinding (e : EnvironmentId) : Program σ Value := do
  ofOutcome (← environment e).record.readThis

/-- What `super` looks at: the prototype of the home object of a function. -/
def getSuperBase (f : FunctionScope) : Program σ Value := do
  match f.home with
  | some home => return .ofObject? (← getPrototypeOf home)
  | none => return .undefined

end Program

end Ecma
