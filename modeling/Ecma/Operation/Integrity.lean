import Ecma.Operation.Property

/-!
# Sealing and freezing

An object is sealed if nothing can be added to it and no property can be removed
or redefined, and frozen if no value can be changed either. Reaching a level asks
the object for every property of it, one key after the other.
-/

namespace Ecma

/-- How far an object is closed to changes. -/
inductive IntegrityLevel where
  | sealed
  | frozen
  deriving DecidableEq, Repr

/-- What a level asks of a property. -/
def IntegrityLevel.request (p : Property) : IntegrityLevel → Descriptor
  | sealed => { configurable := some false }
  | frozen =>
    if p.isAccessor then { configurable := some false }
    else { configurable := some false, writable := some false }

/-- A property is as closed as a level asks. -/
def IntegrityLevel.holds (p : Property) : IntegrityLevel → Bool
  | sealed => !p.configurable
  | frozen => !p.configurable && !p.isWritable

namespace Program

variable {σ : Type}

/-- Close a property of an object; to freeze it, it must be looked at first. -/
def closeProperty (o : ObjectId) (level : IntegrityLevel) (k : PropertyKey) :
    Program σ Unit := do
  match level with
  | .sealed => definePropertyOrThrow o k { configurable := some false }
  | .frozen =>
    match ← getOwnProperty o k with
    | some p => definePropertyOrThrow o k (IntegrityLevel.request p .frozen)
    | none => return ()

/-- Close properties one after the other. -/
def closeProperties (o : ObjectId) (level : IntegrityLevel) : List PropertyKey → Program σ Unit
  | [] => return ()
  | k :: rest => do
    closeProperty o level k
    closeProperties o level rest

/-- Seal or freeze an object. -/
def setIntegrityLevel (o : ObjectId) (level : IntegrityLevel) : Program σ Bool := do
  if ← preventExtensions o then
    closeProperties o level (← ownKeys o)
    return true
  else
    return false

/-- Whether the properties of keys are as closed as a level asks. -/
def allClosed (o : ObjectId) (level : IntegrityLevel) : List PropertyKey → Program σ Bool
  | [] => return true
  | k :: rest => do
    match ← getOwnProperty o k with
    | some p => if IntegrityLevel.holds p level then allClosed o level rest else return false
    | none => allClosed o level rest

/-- Whether an object is sealed or frozen. -/
def testIntegrityLevel (o : ObjectId) (level : IntegrityLevel) : Program σ Bool := do
  if ← isExtensible o then return false else allClosed o level (← ownKeys o)

end Program

end Ecma
