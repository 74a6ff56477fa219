import Ecma.Program.Basic

/-!
# Reading, writing and calling

The operations that programs use on objects and values: they pick the receiver,
turn a refusal into a failure where it must not pass unnoticed, and check that
what is called can be called.
-/

namespace Ecma.Program

variable {σ : Type}

/-! ## Values as objects -/

/-- The prototype and the class of the object that a primitive value becomes. -/
def wrapper? : Value → Option (Intrinsic × String)
  | .boolean _ => some (.booleanPrototype, "Boolean")
  | .number _ => some (.numberPrototype, "Number")
  | .string _ => some (.stringPrototype, "String")
  | .symbol _ => some (.symbolPrototype, "Symbol")
  | .bigint _ => some (.bigintPrototype, "BigInt")
  | .simd _ => some (.simdPrototype, "SIMD")
  | .undefined | .null | .object _ => none

/-- The object that a value is or becomes. -/
def toObject (v : Value) : Program σ ObjectId :=
  match v with
  | .object o => pure o
  | v =>
    match wrapper? v with
    | some (i, className) => allocate (.ordinary (some i.id) className (some v) false)
    | none => raise .nullishToObject

/-- The value, unless it is undefined or null. -/
def requireObjectCoercible (v : Value) : Program σ Value :=
  if v.isNullish then raise .nullishToObject else pure v

/-! ## Properties -/

/-- The value of a property of an object. -/
def get (o : ObjectId) (k : PropertyKey) : Program σ Value := getFor o k (.object o)

/-- The value of a property of any value. -/
def getV (v : Value) (k : PropertyKey) : Program σ Value := do
  let o ← toObject v
  getFor o k v

/-- The method of a value under a key: `none` if it is undefined or null. -/
def getMethod (v : Value) (k : PropertyKey) : Program σ (Option ObjectId) := do
  match ← getV v k with
  | .undefined | .null => return none
  | .object f => if ← isCallableObject f then return some f else raise (.notFunction k.toText)
  | _ => raise (.notFunction k.toText)

/-- Set a property of an object; with `must`, a refusal is a failure. -/
def set (o : ObjectId) (k : PropertyKey) (v : Value) (must : Bool) : Program σ Bool := do
  let granted ← setFor o k v (.object o)
  if !granted && must then raise (.readOnly k.toText) else return granted

/-- The object itself has a property. -/
def hasOwnProperty (o : ObjectId) (k : PropertyKey) : Program σ Bool := do
  return (← getOwnProperty o k).isSome

/-- Define a property as assigning would. -/
def createDataProperty (o : ObjectId) (k : PropertyKey) (v : Value) : Program σ Bool :=
  defineOwnProperty o k (.data v true true true)

/-- Define a property as assigning would; a refusal is a failure. -/
def createDataPropertyOrThrow (o : ObjectId) (k : PropertyKey) (v : Value) : Program σ Unit := do
  if ← createDataProperty o k v then return () else raise (.cannotRedefine k.toText)

/-- Define a property that is not enumerable. -/
def createMethodProperty (o : ObjectId) (k : PropertyKey) (v : Value) : Program σ Bool :=
  defineOwnProperty o k (.data v true false true)

/-- Define a property; a refusal is a failure, which tells a missing property from
one that is there. -/
def definePropertyOrThrow (o : ObjectId) (k : PropertyKey) (d : Descriptor) :
    Program σ Unit := do
  if ← defineOwnProperty o k d then return ()
  else
    match ← getOwnProperty o k with
    | none => raise (.notExtensible k.toText)
    | some _ => raise (.cannotRedefine k.toText)

/-- Remove a property; a refusal is a failure. -/
def deletePropertyOrThrow (o : ObjectId) (k : PropertyKey) : Program σ Unit := do
  if ← delete o k then return () else raise (.cannotDelete k.toText)

/-! ## Calls -/

/-- Call a value. -/
def call (f this : Value) (args : List Value) : Program σ Value := do
  match f with
  | .object o =>
    if ← isCallableObject o then callObject o this args
    else raise (.notFunction (← valueText f))
  | f => raise (.notFunction (← valueText f))

/-- Let a value construct, for itself or for another constructor. -/
def construct (f : Value) (args : List Value) (newTarget : Option ObjectId) :
    Program σ ObjectId := do
  match f with
  | .object o =>
    if (← traits o).isConstructor then
      let target := newTarget.getD o
      let known ← traits target
      if known.isConstructor then constructObject o args target
      else raise (.notConstructor known.className)
    else raise (.notConstructor (← valueText f))
  | f => raise (.notConstructor (← valueText f))

/-- Call the method of a value under a key. -/
def invoke (v : Value) (k : PropertyKey) (args : List Value) : Program σ Value := do
  let f ← getV v k
  call f v args

end Ecma.Program
