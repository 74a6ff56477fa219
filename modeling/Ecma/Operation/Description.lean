import Ecma.Operation.Conversion

/-!
# Descriptors as objects

A descriptor can be written as an object with a property for each field that is
present, and read back from any object, inherited properties included.
-/

namespace Ecma.Program

variable {σ : Type}

/-- A field of a description, if the object or one that it inherits from has it. -/
def readField (o : ObjectId) (name : String) : Program σ (Option Value) := do
  if ← hasProperty o (.string name) then return some (← get o (.string name)) else return none

/-- A field of a description as a truth value. -/
def readFlag (o : ObjectId) (name : String) : Program σ (Option Bool) := do
  match ← readField o name with
  | some v => return some (← toBoolean v)
  | none => return none

/-- A field of a description that must be undefined or callable. -/
def readAccessor (o : ObjectId) (name : String) (c : Cause) : Program σ (Option Value) := do
  match ← readField o name with
  | some .undefined => return some .undefined
  | some v => if ← isCallable v then return some v else raise c
  | none => return none

/-- The descriptor that an object describes. -/
def toPropertyDescriptor (v : Value) : Program σ Descriptor := do
  match v with
  | .object o =>
    let enumerable ← readFlag o "enumerable"
    let configurable ← readFlag o "configurable"
    let value ← readField o "value"
    let writable ← readFlag o "writable"
    let get ← readAccessor o "get" .getterNotCallable
    let set ← readAccessor o "set" .setterNotCallable
    let d : Descriptor := { value, writable, get, set, enumerable, configurable }
    if d.isAccessor && d.isData then raise .mixedDescriptor else return d
  | _ => raise .descriptorNotObject

/-- The fields that are present, in the order in which they are written. -/
def presentFields (d : Descriptor) : List (String × Value) :=
  [("value", d.value), ("writable", d.writable.map .boolean), ("get", d.get), ("set", d.set),
    ("enumerable", d.enumerable.map .boolean),
    ("configurable", d.configurable.map .boolean)].filterMap fun f =>
      f.2.map fun v => (f.1, v)

/-- Write fields to an object. -/
def writeFields (o : ObjectId) : List (String × Value) → Program σ Unit
  | [] => return ()
  | (name, v) :: rest => do
    createDataPropertyOrThrow o (.string name) v
    writeFields o rest

/-- The object that describes a descriptor; undefined if there is none. -/
def fromPropertyDescriptor : Option Descriptor → Program σ Value
  | none => return .undefined
  | some d => do
    let o ← newObject
    writeFields o (presentFields d)
    return .object o

end Ecma.Program
