import Ecma.Operation.Conversion

/-!
# Instances and species

Whether a value is an instance of a constructor is for the constructor to say; by
default it is one if the constructor's prototype object lies on its chain.
-/

namespace Ecma.Program

variable {σ : Type}

/-- Whether `p` lies on the prototype chain strictly above `o`, in at most `fuel`
links. -/
def inheritsFrom (p : ObjectId) : Nat → ObjectId → Program σ Bool
  | 0, _ => exhausted
  | fuel + 1, o => do
    match ← getPrototypeOf o with
    | none => return false
    | some next => if next = p then return true else inheritsFrom p fuel next

/-- Whether the prototype object of a constructor lies on the chain of a value. -/
def ordinaryHasInstance (constructor v : Value) : Program σ Bool := do
  match constructor with
  | .object c =>
    if ← isCallableObject c then
      match v with
      | .object o =>
        match ← get c (.string "prototype") with
        | .object p => inheritsFrom p (← budget) o
        | _ => raise .prototypeNotObject
      | _ => return false
    else return false
  | _ => return false

/-- `v instanceof target` -/
def instanceof (v target : Value) : Program σ Bool := do
  if target.isObject then
    match ← getMethod target (.wellKnown .hasInstance) with
    | some f => toBoolean (← callObject f target [v])
    | none =>
      if ← isCallable target then ordinaryHasInstance target v else raise .instanceofNotCallable
  else raise .instanceofNotObject

/-- The constructor for objects derived from `o`. -/
def speciesConstructor (o default : ObjectId) : Program σ ObjectId := do
  match ← get o (.string "constructor") with
  | .undefined => return default
  | .object c =>
    match ← get c (.wellKnown .species) with
    | .undefined | .null => return default
    | .object s =>
      if (← traits s).isConstructor then return s else raise .speciesNotConstructor
    | _ => raise .speciesNotConstructor
  | _ => raise .constructorNotObject

end Ecma.Program
