import Ecma.Scope.Name

/-!
# References: names along the scope chain

Resolving a name walks outward from an environment to the innermost one that has
it. The result remembers that environment; reading, assigning and deleting go
there, and a name that nothing has is assigned to the global object by sloppy
code alone.
-/

namespace Ecma

/-- A name that was looked up. -/
inductive Reference where
  | resolved (base : EnvironmentId) (name : String) (strict : Bool)
  | unresolvable (name : String) (strict : Bool)
  deriving DecidableEq, Repr

namespace Reference

/-- The name. -/
def name : Reference → String
  | resolved _ name _ | unresolvable name _ => name

/-- The name was used by strict code. -/
def isStrict : Reference → Bool
  | resolved _ _ strict | unresolvable _ strict => strict

/-- The environment that has the name. -/
def base? : Reference → Option EnvironmentId
  | resolved base _ _ => some base
  | unresolvable _ _ => none

end Reference

namespace Heap

/-- The nearest environment with a value for `this`, in at most `fuel` links. -/
def thisEnvironmentWithin (h : Heap) : Nat → EnvironmentId → Outcome EnvironmentId
  | 0, _ => .stopped .exhausted
  | fuel + 1, e => do
    let env ← h.environment e
    if env.record.hasThis then return e
    else
      match env.outer with
      | some outer => h.thisEnvironmentWithin fuel outer
      | none => .fault .noThisEnvironment

/-- The nearest environment with a value for `this`. A chain is no longer than
there are environments. -/
def thisEnvironment (h : Heap) (e : EnvironmentId) : Outcome EnvironmentId :=
  h.thisEnvironmentWithin (h.environments.size + 1) e

end Heap

namespace Program

variable {σ : Type}

/-- Look a name up along the chain, in at most `fuel` links. -/
def resolveWithin (name : String) (strict : Bool) : Nat → Option EnvironmentId → Program σ Reference
  | _, none => return .unresolvable name strict
  | 0, some _ => exhausted
  | fuel + 1, some e => do
    if ← hasBinding e name then return .resolved e name strict
    else resolveWithin name strict fuel (← environment e).outer

/-- Look a name up. A chain is no longer than there are environments. -/
def resolve (e : EnvironmentId) (name : String) (strict : Bool) : Program σ Reference := do
  resolveWithin name strict (← heap).environments.size (some e)

/-- The value of a reference. -/
def getValue : Reference → Program σ Value
  | .resolved base name strict => getBindingValue base name strict
  | .unresolvable name _ => raise (.notDefined name)

/-- Assign a reference. -/
def putValue (r : Reference) (v : Value) : Program σ Unit :=
  match r with
  | .resolved base name strict => setMutableBinding base name v strict
  | .unresolvable name true => raise (.notDefined name)
  | .unresolvable name false => do
    let _ ← set Intrinsic.global.id (.ofString name) v false
    return ()

/-- Delete what a reference names. -/
def deleteReference : Reference → Program σ Bool
  | .resolved base name _ => deleteBinding base name
  | .unresolvable _ _ => return true

/-- The value of `this` for a call through a reference. -/
def referenceThis : Reference → Program σ Value
  | .resolved base _ _ => do return (← environment base).record.withObject
  | .unresolvable _ _ => return .undefined

/-- The nearest environment with a value for `this`. -/
def thisEnvironment (e : EnvironmentId) : Program σ EnvironmentId := do
  ofOutcome ((← heap).thisEnvironment e)

/-- The value of `this`. -/
def resolveThis (e : EnvironmentId) : Program σ Value := do getThisBinding (← thisEnvironment e)

/-- The value of `new.target`. -/
def getNewTarget (e : EnvironmentId) : Program σ Value := do
  match (← environment (← thisEnvironment e)).record with
  | .function f => return .ofObject? f.newTarget
  | _ => return .undefined

/-! ## New environments -/

/-- Create an environment. -/
def enclose (r : ScopeRecord) (outer : Option EnvironmentId) : Program σ EnvironmentId :=
  effect (.enclose ⟨r, outer⟩)

/-- Create an environment with a table of bindings. -/
def newDeclarative (outer : EnvironmentId) : Program σ EnvironmentId :=
  enclose (.declarative ∅) (some outer)

/-- Create an environment with the parameter of a `catch` clause. -/
def newCatch (outer : EnvironmentId) (name : String) (thrown : Value) :
    Program σ EnvironmentId := do
  let e ← newDeclarative outer
  let _ ← changeBindings e (.create name (.newMutable false))
  let _ ← changeBindings e (.init name thrown)
  return e

/-- Create an environment whose names are the properties of an object. -/
def newObjectScope (o : ObjectId) (isWith : Bool) (outer : EnvironmentId) :
    Program σ EnvironmentId :=
  enclose (.object ⟨o, isWith⟩) (some outer)

/-- Create the environment of a function call. -/
def newFunctionScope (f : FunctionScope) (outer : EnvironmentId) : Program σ EnvironmentId :=
  enclose (.function f) (some outer)

/-- Create a global environment. -/
def newGlobal (object this : ObjectId) : Program σ EnvironmentId :=
  enclose (.global (.new object this)) none

/-- Copy an environment with a table of bindings; from then on the two change
independently. -/
def cloneDeclarative (e : EnvironmentId) : Program σ EnvironmentId := do
  let env ← environment e
  match env.record with
  | .declarative b => enclose (.declarative b) env.outer
  | _ => fault .notClonable

end Program

end Ecma
