import Ecma.Operation.Conversion

/-!
# Iteration

An iterator record holds an iterator, its `next` method as it was found at the
start, and whether it is done. Stepping marks a record done when there is nothing
left and when anything fails. Closing an iterator because of a failure keeps that
failure; what goes wrong meanwhile is attached to it.
-/

namespace Ecma

/-- An iteration in progress. -/
structure IteratorRecord where
  iterator : ObjectId
  next : Value
  done : Bool
  deriving DecidableEq, Repr

namespace Program

variable {σ : Type}

/-- Start an iteration with the given method. -/
def getIteratorFrom (v : Value) (method : ObjectId) : Program σ IteratorRecord := do
  match ← callObject method v [] with
  | .object iterator =>
    let next ← get iterator (.string "next")
    return ⟨iterator, next, false⟩
  | _ => raise .iteratorNotObject

/-- Start an iteration with the method that a value has for it. -/
def getIterator (v : Value) : Program σ IteratorRecord := do
  match ← getMethod v (.wellKnown .iterator) with
  | some method => getIteratorFrom v method
  | none => raise (.notIterable (← valueText v))

/-- Call the `next` method; the result must be an object. -/
def iteratorNext (r : IteratorRecord) (args : List Value) : Program σ ObjectId := do
  match ← call r.next (.object r.iterator) args with
  | .object result => return result
  | _ => raise .iteratorResultNotObject

/-- Whether a result says that the iteration is over. -/
def iteratorComplete (result : ObjectId) : Program σ Bool := do
  toBoolean (← get result (.string "done"))

/-- The value of a result. -/
def iteratorValue (result : ObjectId) : Program σ Value := get result (.string "value")

/-- The next result, or `none` if the iteration is over. -/
def nextResult (r : IteratorRecord) : Program σ (Option ObjectId) := do
  let result ← iteratorNext r []
  if ← iteratorComplete result then return none else return some result

/-- Take a step. It yields the record, marked done unless there is a result, and
the result or the failure. -/
def iteratorStep (r : IteratorRecord) :
    Program σ (IteratorRecord × Except Failure (Option ObjectId)) := do
  match ← (nextResult r).attempt with
  | .ok (some result) => return (r, .ok (some result))
  | .ok none => return ({ r with done := true }, .ok none)
  | .error f => return ({ r with done := true }, .error f)

/-- Call the `return` method of an iterator if it has one; yields its result. -/
def callReturn (r : IteratorRecord) : Program σ (Option Value) := do
  match ← getMethod (.object r.iterator) (.string "return") with
  | some f => return some (← callObject f (.object r.iterator) [])
  | none => return none

/-- Close an iterator. -/
def iteratorClose (r : IteratorRecord) : Program σ Unit := do
  match ← callReturn r with
  | some v => if v.isObject then return () else raise .iteratorResultNotObject
  | none => return ()

/-- Close an iterator because of a failure; yields that failure. -/
def iteratorCloseWith (r : IteratorRecord) (f : Failure) : Program σ Failure := do
  match ← (callReturn r).attempt with
  | .ok _ => return f
  | .error later => return f.suppress later

/-- A result object. -/
def createIterResult (v : Value) (done : Bool) : Program σ ObjectId := do
  let o ← newObject
  createDataPropertyOrThrow o (.string "value") v
  createDataPropertyOrThrow o (.string "done") (.boolean done)
  return o

/-- The values of all results, behind those in `acc`, in at most `fuel` steps. -/
def drain : Nat → IteratorRecord → List Value → Program σ (List Value)
  | 0, _, _ => exhausted
  | fuel + 1, r, acc => do
    match ← iteratorStep r with
    | (r, .ok (some result)) =>
      let v ← iteratorValue result
      drain fuel r (v :: acc)
    | (_, .ok none) => return acc.reverse
    | (_, .error f) => fail f

/-- The list of all values that an iteration gives. -/
def iterableToList (v : Value) (method : Option ObjectId) : Program σ (List Value) := do
  let r ← match method with
    | some m => getIteratorFrom v m
    | none => getIterator v
  drain (← budget) r []

end Program

end Ecma
