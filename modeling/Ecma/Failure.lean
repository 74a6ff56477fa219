import Ecma.IndexedMap.Bounds
import Ecma.Value

/-!
# Failures and faults

A computation can end without a value in two ways that must not be confused.

* A **failure** belongs to the language: user code can observe it and go on. It is
  raised by an operation, with a `Cause`, or thrown by user code, with a value.
  Failures that happen while one is already on its way are attached to it as
  suppressed.
* A **fault** is a broken promise of the caller: it ends everything.

All wording is here.
-/

namespace Ecma

/-- The identity of a module within its graph. -/
structure ModuleId where
  index : Nat
  deriving DecidableEq, Repr, Inhabited

/-- A module's identity as text. -/
def ModuleId.toText (m : ModuleId) : String := s!"module#{m.index}"

/-! ## Failures -/

/-- The kinds of error that the language has. -/
inductive ErrorKind where
  | type
  | reference
  | range
  | syntactic
  | eval
  | uri
  deriving DecidableEq, Repr

namespace ErrorKind

/-- All kinds. -/
def all : List ErrorKind := [type, reference, range, syntactic, eval, uri]

/-- The name of a kind. -/
def name : ErrorKind → String
  | type => "TypeError"
  | reference => "ReferenceError"
  | range => "RangeError"
  | syntactic => "SyntaxError"
  | eval => "EvalError"
  | uri => "URIError"

/-- The kind of a name. -/
def ofName? (s : String) : Option ErrorKind := all.find? fun k => k.name = s

end ErrorKind

/-- Why an operation fails. A text argument is the thing that the message
names. -/
inductive Cause where
  | notFunction (what : String)
  | notObject (what : String)
  | notConstructor (what : String)
  | notIterable (what : String)
  | conversionGaveObject
  | noPrimitive
  | symbolToNumber
  | symbolToString
  | bigintToNumber
  | simdToNumber
  | nullishToObject
  | iteratorResultNotObject
  | iteratorNotObject
  | speciesNotConstructor
  | constructorNotObject
  | instanceofNotObject
  | instanceofNotCallable
  | prototypeNotObject
  | mixedDescriptor
  | descriptorNotObject
  | getterNotCallable
  | setterNotCallable
  | elementType
  | constantAssignment
  | alreadyDeclared (name : String)
  | readOnly (key : String)
  | cannotRedefine (key : String)
  | cannotDelete (key : String)
  | notExtensible (key : String)
  | thisUninitialized
  | notDefined (name : String)
  | uninitialized (name : String)
  | invalidArrayLength
  | invalidIndex
  | tooManyArguments
  /-- raised by code outside the object model -/
  | custom (kind : ErrorKind) (message : String)
  deriving DecidableEq, Repr

namespace Cause

/-- The kind of error that a cause makes. -/
def kind : Cause → ErrorKind
  | thisUninitialized | notDefined _ | uninitialized _ => .reference
  | invalidArrayLength | invalidIndex | tooManyArguments => .range
  | custom kind _ => kind
  | _ => .type

/-- What is said of a cause. -/
def message : Cause → String
  | notFunction what => what ++ " is not a function"
  | notObject what => what ++ " is not an object"
  | notConstructor what => what ++ " is not a constructor"
  | notIterable what => what ++ " is not iterable"
  | conversionGaveObject => "@@toPrimitive returned an object"
  | noPrimitive => "Cannot convert object to primitive value"
  | symbolToNumber => "Cannot convert a Symbol value to a number"
  | symbolToString => "Cannot convert a Symbol value to a string"
  | bigintToNumber => "Cannot convert a BigInt value to a number"
  | simdToNumber => "Cannot convert a SIMD value to a number"
  | nullishToObject => "Cannot convert undefined or null to object"
  | iteratorResultNotObject => "Iterator result is not an object"
  | iteratorNotObject => "Result of the Symbol.iterator method is not an object"
  | speciesNotConstructor => "object.constructor[Symbol.species] is not a constructor"
  | constructorNotObject => "object.constructor is not an object"
  | instanceofNotObject => "Right-hand side of 'instanceof' is not an object"
  | instanceofNotCallable => "Right-hand side of 'instanceof' is not callable"
  | prototypeNotObject => "Function has non-object prototype in instanceof check"
  | mixedDescriptor =>
    "Invalid property descriptor. Cannot both specify accessors and a value or writable attribute"
  | descriptorNotObject => "Property description must be an object"
  | getterNotCallable => "Getter must be a function"
  | setterNotCallable => "Setter must be a function"
  | elementType => "Array-like element has an unexpected type"
  | constantAssignment => "Assignment to constant variable"
  | alreadyDeclared name => "Identifier '" ++ name ++ "' has already been declared"
  | readOnly key => "Cannot assign to read only property '" ++ key ++ "'"
  | cannotRedefine key => "Cannot redefine property: " ++ key
  | cannotDelete key => "Cannot delete property '" ++ key ++ "'"
  | notExtensible key => "Cannot define property " ++ key ++ ", object is not extensible"
  | thisUninitialized => "Must call super constructor before accessing 'this'"
  | notDefined name => name ++ " is not defined"
  | uninitialized name => "Cannot access '" ++ name ++ "' before initialization"
  | invalidArrayLength => "Invalid array length"
  | invalidIndex => "Invalid index"
  | tooManyArguments => "Too many arguments in function call"
  | custom _ message => message

end Cause

/-- An end that user code can observe. -/
inductive Failure where
  /-- raised by an operation -/
  | raised (cause : Cause) (suppressed : List Failure)
  /-- thrown by user code -/
  | thrown (value : Value) (suppressed : List Failure)
  /-- the options of a realm could not be read -/
  | badOptions

namespace Failure

/-- A failure with nothing suppressed. -/
def ofCause (c : Cause) : Failure := raised c []

/-- The failures that were attached to this one. -/
def suppressed : Failure → List Failure
  | raised _ s | thrown _ s => s
  | badOptions => []

/-- Attach a failure to one that is on its way already. Unreadable options carry
none. -/
def suppress (f : Failure) (later : Failure) : Failure :=
  match f with
  | raised c s => raised c (s ++ [later])
  | thrown v s => thrown v (s ++ [later])
  | badOptions => badOptions

end Failure

mutual

/-- A failure as text, the suppressed ones below it. -/
def Failure.toTextWith (className : ObjectId → String) : Failure → String
  | .raised c s => c.kind.name ++ ": " ++ c.message ++ suppressedTextWith className s
  | .thrown v s => "Uncaught " ++ v.inspectWith className ++ suppressedTextWith className s
  | .badOptions => "ConfigError"

/-- Suppressed failures as text, each on a line of its own. -/
def suppressedTextWith (className : ObjectId → String) : List Failure → String
  | [] => ""
  | f :: rest =>
    "\n    suppressed: " ++ f.toTextWith className ++ suppressedTextWith className rest

end

/-! ## Faults -/

/-- A promise that a caller broke. -/
inductive Fault where
  | bounds (e : IndexedMap.BoundsError)
  | lanes (e : LaneError)
  | mismatch (e : TypeMismatch)
  | bindingExists (name : String)
  | bindingMissing (name : String)
  | bindingInitialized (name : String)
  | importOutsideModule (name : String)
  | moduleBindingDeleted (name : String)
  | immutableObjectBinding (name : String)
  | noThisBinding
  | noThisEnvironment
  | arrowThisBound
  | arrowThisRead
  | thisBoundTwice
  | notClonable
  | foreignModule (m : ModuleId)
  /-- an identity that nothing was allocated for, or of another kind than asked -/
  | dangling
  deriving DecidableEq, Repr

/-- What is said of a fault. -/
def Fault.message : Fault → String
  | bounds e => e.message
  | lanes e => e.message
  | mismatch e => e.message
  | bindingExists name => "binding '" ++ name ++ "' already exists in this environment"
  | bindingMissing name => "binding '" ++ name ++ "' does not exist"
  | bindingInitialized name => "binding '" ++ name ++ "' is already initialized"
  | importOutsideModule name =>
    "internal error: entered unreachable code: indirect binding '" ++ name ++
      "' outside a module environment"
  | moduleBindingDeleted name => "module environment binding '" ++ name ++ "' cannot be deleted"
  | immutableObjectBinding name =>
    "object environment records cannot hold immutable binding '" ++ name ++ "'"
  | noThisBinding => "environment record has no `this` binding"
  | noThisEnvironment => "scope chain has no environment with a `this` binding"
  | arrowThisBound => "cannot bind `this` in an arrow function environment"
  | arrowThisRead => "arrow function environments have no `this` binding"
  | thisBoundTwice => "`this` is already bound"
  | notClonable => "only declarative environments can be cloned"
  | foreignModule m => m.toText ++ " is not part of this module graph"
  | dangling => "dangling reference"

/-! ## Outcomes -/

/-- An end that nothing observes. -/
inductive Stop where
  | fault (f : Fault)
  /-- the fuel of a run was used up -/
  | exhausted
  deriving DecidableEq, Repr

/-- How a computation ends. -/
inductive Outcome (α : Type) where
  | value (a : α)
  | failure (f : Failure)
  | stopped (s : Stop)

namespace Outcome

/-- Go on after a value. -/
protected def bind {α β : Type} (x : Outcome α) (f : α → Outcome β) : Outcome β :=
  match x with
  | value a => f a
  | failure e => failure e
  | stopped s => stopped s

instance : Monad Outcome where
  pure := value
  bind := Outcome.bind

instance {α : Type} : Inhabited (Outcome α) := ⟨stopped (.fault .dangling)⟩

@[simp] theorem pure_eq {α : Type} (a : α) : (pure a : Outcome α) = value a := rfl

@[simp] theorem value_bind {α β : Type} (a : α) (f : α → Outcome β) : value a >>= f = f a := rfl

@[simp] theorem failure_bind {α β : Type} (e : Failure) (f : α → Outcome β) :
    failure e >>= f = failure e := rfl

@[simp] theorem stopped_bind {α β : Type} (s : Stop) (f : α → Outcome β) :
    stopped s >>= f = stopped s := rfl

/-- Going on gives a value only from a value. -/
theorem bind_eq_value {α β : Type} {x : Outcome α} {f : α → Outcome β} {b : β}
    (h : x >>= f = value b) : ∃ a, x = value a ∧ f a = value b := by
  cases x with
  | value a => exact ⟨a, rfl, h⟩
  | failure e => cases h
  | stopped s => cases h

/-- Fail with a cause. -/
def raise {α : Type} (c : Cause) : Outcome α := failure (.ofCause c)

/-- Stop with a fault. -/
def fault {α : Type} (f : Fault) : Outcome α := stopped (.fault f)

end Outcome

end Ecma
