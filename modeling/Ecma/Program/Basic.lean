import Ecma.Heap
import Ecma.Realm.Options

/-!
# Programs

Everything that may run user code is written in one language. A `Program σ α` is a
tree: it ends with a value, a failure or a stop, or it has one **effect** and goes
on with the answer. The tree does not say what an effect does; a machine does.

The point of the language is what is *absent* from it. An object is changed only
by asking it for one of its methods (`Request`), never by writing to its
properties; a table of bindings is changed only by the rules of bindings; an
array is only ever created with a length. A program may look at the whole heap,
but it cannot put anything into it that these rules would not. User code and the
code of exotic objects are programs too, so what these rules guarantee holds
whatever they do.

The answer to an effect may be a failure. The program sees it, and goes on or
passes it on; faults and exhaustion it never sees.
-/

namespace Ecma

/-! ## Methods of objects -/

/-- A request to an object for one of its essential methods. -/
inductive Request where
  | getPrototypeOf (o : ObjectId)
  | setPrototypeOf (o : ObjectId) (prototype : Option ObjectId)
  | isExtensible (o : ObjectId)
  | preventExtensions (o : ObjectId)
  | getOwnProperty (o : ObjectId) (k : PropertyKey)
  | defineOwnProperty (o : ObjectId) (k : PropertyKey) (d : Descriptor)
  | hasProperty (o : ObjectId) (k : PropertyKey)
  | get (o : ObjectId) (k : PropertyKey) (receiver : Value)
  | set (o : ObjectId) (k : PropertyKey) (v : Value) (receiver : Value)
  | delete (o : ObjectId) (k : PropertyKey)
  | ownKeys (o : ObjectId)
  | isArray (o : ObjectId)
  | call (o : ObjectId) (this : Value) (args : List Value)
  | construct (o : ObjectId) (args : List Value) (newTarget : ObjectId)

namespace Request

/-- What a request is answered with. -/
def Answer : Request → Type
  | getPrototypeOf _ => Option ObjectId
  | getOwnProperty _ _ => Option Property
  | get _ _ _ => Value
  | ownKeys _ => List PropertyKey
  | call _ _ _ => Value
  | construct _ _ _ => ObjectId
  | _ => Bool

/-- The object that a request is made to. -/
def target : Request → ObjectId
  | getPrototypeOf o | setPrototypeOf o _ | isExtensible o | preventExtensions o
  | getOwnProperty o _ | defineOwnProperty o _ _ | hasProperty o _ | get o _ _ | set o _ _ _
  | delete o _ | ownKeys o | isArray o | call o _ _ | construct o _ _ => o

end Request

/-! ## Effects -/

/-- What a program can do; `σ` is the state of the code outside the model. -/
inductive Effect (σ : Type) where
  /-- ask an object for a method -/
  | method (r : Request)
  /-- look at the heap -/
  | heap
  /-- look at the options of the realm -/
  | options
  /-- ask how many steps are left -/
  | budget
  /-- create an object -/
  | allocate (b : Blueprint)
  /-- create a symbol -/
  | freshSymbol (description : Option String)
  /-- find or create a registered symbol -/
  | symbolFor (key : String)
  /-- create an environment -/
  | enclose (env : Environment)
  /-- change the bindings of an environment -/
  | bindings (e : EnvironmentId) (c : BindingCommand)
  /-- give `this` its value -/
  | bindThis (e : EnvironmentId) (v : Value)
  /-- remember a variable of a global environment -/
  | declareVar (e : EnvironmentId) (name : String)
  /-- forget a variable of a global environment -/
  | forgetVar (e : EnvironmentId) (name : String)
  /-- create a module graph -/
  | newGraph
  /-- drop a module graph -/
  | dropGraph (g : GraphId)
  /-- add a module to a graph -/
  | addModule (g : GraphId) (specifier : String)
  /-- set how far a module has come -/
  | setStatus (g : GraphId) (m : ModuleId) (s : ModuleStatus)
  /-- give a module its environment -/
  | instantiate (g : GraphId) (m : ModuleId) (outer : EnvironmentId)
  /-- read the state of the code outside the model -/
  | load
  /-- write the state of the code outside the model -/
  | store (s : σ)

/-- What an effect is answered with. -/
def Effect.Answer {σ : Type} : Effect σ → Type
  | method r => r.Answer
  | heap => Heap
  | options => RealmOptions
  | budget => Nat
  | allocate _ => ObjectId
  | freshSymbol _ | symbolFor _ => Symbol
  | enclose _ | instantiate _ _ _ => EnvironmentId
  | bindings _ _ => Bool
  | newGraph => GraphId
  | addModule _ _ => ModuleId
  | load => σ
  | bindThis _ _ | declareVar _ _ | forgetVar _ _ | dropGraph _ | setStatus _ _ _ | store _ => Unit

/-! ## Programs -/

/-- A program that ends with an `α`. -/
inductive Program (σ α : Type) : Type where
  /-- end with a value -/
  | done (a : α)
  /-- end with a failure -/
  | fail (f : Failure)
  /-- end everything -/
  | stop (s : Stop)
  /-- have an effect and go on with its answer -/
  | step (e : Effect σ) (k : Except Failure e.Answer → Program σ α)

namespace Program

variable {σ α β : Type}

/-- Go on with the value of a program. -/
protected def bind : Program σ α → (α → Program σ β) → Program σ β
  | done a, f => f a
  | fail e, _ => fail e
  | stop s, _ => stop s
  | step e k, f => step e fun answer => (k answer).bind f

instance : Monad (Program σ) where
  pure := done
  bind := Program.bind

instance : Inhabited (Program σ α) := ⟨stop (.fault .dangling)⟩

@[simp] theorem pure_eq (a : α) : (pure a : Program σ α) = done a := rfl

@[simp] theorem bind_eq (p : Program σ α) (f : α → Program σ β) : p >>= f = p.bind f := rfl

@[simp] theorem done_bind (a : α) (f : α → Program σ β) : (done a).bind f = f a := rfl

@[simp] theorem fail_bind (e : Failure) (f : α → Program σ β) : (fail e).bind f = fail e := rfl

@[simp] theorem stop_bind (s : Stop) (f : α → Program σ β) : (stop s).bind f = stop s := rfl

@[simp] theorem step_bind (e : Effect σ) (k : Except Failure e.Answer → Program σ α)
    (f : α → Program σ β) : (step e k).bind f = step e fun answer => (k answer).bind f := rfl

@[simp] theorem bind_done (p : Program σ α) : p.bind done = p := by
  induction p with
  | done a => rfl
  | fail e => rfl
  | stop s => rfl
  | step e k ih => exact congrArg (step e) (funext ih)

theorem bind_assoc {γ : Type} (p : Program σ α) (f : α → Program σ β) (g : β → Program σ γ) :
    (p.bind f).bind g = p.bind fun a => (f a).bind g := by
  induction p with
  | done a => rfl
  | fail e => rfl
  | stop s => rfl
  | step e k ih => exact congrArg (step e) (funext ih)

/-- Have an effect and end with its answer. -/
def effect (e : Effect σ) : Program σ e.Answer :=
  step e fun
    | .ok a => done a
    | .error f => fail f

/-- End with a failure of the given cause. -/
def raise (c : Cause) : Program σ α := fail (.ofCause c)

/-- End everything with a fault. -/
def fault (f : Fault) : Program σ α := stop (.fault f)

/-- End everything because the steps are used up. -/
def exhausted : Program σ α := stop .exhausted

/-- End as an outcome says. -/
def ofOutcome : Outcome α → Program σ α
  | .value a => done a
  | .failure f => fail f
  | .stopped s => stop s

/-- End with a value or a failure of the given cause. -/
def ofExcept : Except Cause α → Program σ α
  | .ok a => done a
  | .error c => raise c

/-- Run a program and end with its value or its failure. -/
def attempt : Program σ α → Program σ (Except Failure α)
  | done a => done (.ok a)
  | fail f => done (.error f)
  | stop s => stop s
  | step e k => step e fun answer => (k answer).attempt

@[simp] theorem attempt_done (a : α) : (done a : Program σ α).attempt = done (.ok a) := rfl

@[simp] theorem attempt_fail (f : Failure) : (fail f : Program σ α).attempt = done (.error f) := rfl

@[simp] theorem attempt_stop (s : Stop) : (stop s : Program σ α).attempt = stop s := rfl

@[simp] theorem attempt_step (e : Effect σ) (k : Except Failure e.Answer → Program σ α) :
    (step e k).attempt = step e fun answer => (k answer).attempt := rfl

/-! ## Effects by name -/

/-- The heap as it is. -/
def heap : Program σ Heap := effect .heap

/-- The options of the realm. -/
def options : Program σ RealmOptions := effect .options

/-- How many steps are left. -/
def budget : Program σ Nat := effect .budget

/-- Create an object. -/
def allocate (b : Blueprint) : Program σ ObjectId := effect (.allocate b)

/-- Create an object without properties that inherits from the prototype of
objects. -/
def newObject : Program σ ObjectId :=
  allocate (.ordinary (some Intrinsic.objectPrototype.id) "Object" none false)

/-- Create a symbol. -/
def freshSymbol (description : Option String) : Program σ Symbol := effect (.freshSymbol description)

/-- The symbol registered for a key. -/
def symbolFor (key : String) : Program σ Symbol := effect (.symbolFor key)

/-- The key for which a symbol is registered. -/
def symbolKey (s : Symbol) : Program σ (Option String) := do return (← heap).symbols.keyOf? s

/-- The state of the code outside the model. -/
def load : Program σ σ := effect .load

/-- Set the state of the code outside the model. -/
def store (s : σ) : Program σ Unit := effect (.store s)

/-- What stands at the place of an object. -/
def cell (o : ObjectId) : Program σ Cell := do ofOutcome ((← heap).cell o)

/-- What is known of an object without asking it. -/
def traits (o : ObjectId) : Program σ Traits := do return (← cell o).traits

/-- The object can be called. -/
def isCallableObject (o : ObjectId) : Program σ Bool := do return (← traits o).isCallable

/-- The value can be called. -/
def isCallable : Value → Program σ Bool
  | .object o => isCallableObject o
  | _ => pure false

/-- The value can construct. -/
def isConstructor : Value → Program σ Bool
  | .object o => do return (← traits o).isConstructor
  | _ => pure false

/-- What `typeof` says of a value. -/
def typeOf : Value → Program σ String
  | .undefined => return "undefined"
  | .null => return "object"
  | .boolean _ => return "boolean"
  | .number _ => return "number"
  | .string _ => return "string"
  | .symbol _ => return "symbol"
  | .bigint _ => return "bigint"
  | .simd v => return v.shape.typeName
  | .object o => do
    let t ← traits o
    return if t.isHtmlDda then "undefined" else if t.isCallable then "function" else "object"

/-- A value as text. -/
def valueText (v : Value) : Program σ String := do return v.toTextWith (← heap).className

/-- A value as text for diagnostics. -/
def inspect (v : Value) : Program σ String := do return v.inspectWith (← heap).className

/-- A failure as text. -/
def failureText (f : Failure) : Program σ String := do return f.toTextWith (← heap).className

/-! ## Methods by name -/

/-- The prototype of an object. -/
def getPrototypeOf (o : ObjectId) : Program σ (Option ObjectId) :=
  effect (.method (.getPrototypeOf o))

/-- Give an object another prototype. -/
def setPrototypeOf (o : ObjectId) (p : Option ObjectId) : Program σ Bool :=
  effect (.method (.setPrototypeOf o p))

/-- Properties can be added to the object. -/
def isExtensible (o : ObjectId) : Program σ Bool := effect (.method (.isExtensible o))

/-- Let no further property be added. -/
def preventExtensions (o : ObjectId) : Program σ Bool := effect (.method (.preventExtensions o))

/-- The own property of a key. -/
def getOwnProperty (o : ObjectId) (k : PropertyKey) : Program σ (Option Property) :=
  effect (.method (.getOwnProperty o k))

/-- Change an own property. -/
def defineOwnProperty (o : ObjectId) (k : PropertyKey) (d : Descriptor) : Program σ Bool :=
  effect (.method (.defineOwnProperty o k d))

/-- The object or one that it inherits from has a property. -/
def hasProperty (o : ObjectId) (k : PropertyKey) : Program σ Bool :=
  effect (.method (.hasProperty o k))

/-- The value of a property, getters running for `receiver`. -/
def getFor (o : ObjectId) (k : PropertyKey) (receiver : Value) : Program σ Value :=
  effect (.method (.get o k receiver))

/-- Set the value of a property of `receiver`. -/
def setFor (o : ObjectId) (k : PropertyKey) (v receiver : Value) : Program σ Bool :=
  effect (.method (.set o k v receiver))

/-- Remove an own property. -/
def delete (o : ObjectId) (k : PropertyKey) : Program σ Bool := effect (.method (.delete o k))

/-- The keys of all own properties. -/
def ownKeys (o : ObjectId) : Program σ (List PropertyKey) := effect (.method (.ownKeys o))

/-- The object counts as an array. -/
def isArrayObject (o : ObjectId) : Program σ Bool := effect (.method (.isArray o))

/-- Call an object. -/
def callObject (o : ObjectId) (this : Value) (args : List Value) : Program σ Value :=
  effect (.method (.call o this args))

/-- Let an object construct. -/
def constructObject (o : ObjectId) (args : List Value) (newTarget : ObjectId) :
    Program σ ObjectId :=
  effect (.method (.construct o args newTarget))

end Program

end Ecma
