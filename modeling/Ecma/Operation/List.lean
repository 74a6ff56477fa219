import Ecma.Operation.Conversion

/-!
# Objects and lists

Lists of values become arrays and come back from array-like objects, and the
enumerable properties of an object are listed or copied. Every loop goes over a
list that was fixed before it started; what user code changes meanwhile is seen
only property by property.
-/

namespace Ecma

/-- What is listed of each enumerable property. -/
inductive EnumerableKind where
  | key
  | value
  | keyAndValue
  deriving DecidableEq, Repr

namespace Program

variable {σ : Type}

/-- Create an array. -/
def createArray (length : Nat) (prototype : Option ObjectId) : Program σ ObjectId :=
  allocate (.array length prototype)

/-- Append values to an array whose next free index is `i`. -/
def appendValues (a : ObjectId) : Nat → List Value → Program σ Unit
  | _, [] => return ()
  | i, v :: rest => do
    createDataPropertyOrThrow a (.ofNat i) v
    appendValues a (i + 1) rest

/-- The array of a list of values. -/
def createArrayFromList (vs : List Value) : Program σ ObjectId := do
  let a ← createArray 0 none
  appendValues a 0 vs
  return a

/-- The elements at `count` indices from `i` on, behind those read into `acc`;
every type must be allowed. -/
def readElements (o : ObjectId) (types : Option (List ValueType)) :
    Nat → Nat → List Value → Program σ (List Value)
  | 0, _, acc => return acc.reverse
  | count + 1, i, acc => do
    let v ← get o (.ofNat i)
    if types.all fun allowed => v.type ∈ allowed then readElements o types count (i + 1) (v :: acc)
    else raise .elementType

/-- The list of the elements of an array-like object. -/
def createListFromArrayLike (v : Value) (types : Option (List ValueType)) :
    Program σ (List Value) := do
  match v with
  | .object o =>
    let length ← toLength (← get o (.string "length"))
    if (← options).maxArguments < length then raise .tooManyArguments
    else readElements o types length 0 []
  | v => raise (.notObject (← valueText v))

/-- What is listed of an enumerable property. -/
def listProperty (o : ObjectId) (k : PropertyKey) : EnumerableKind → Program σ Value
  | .key => return k.toValue
  | .value => get o k
  | .keyAndValue => do
    let v ← get o k
    return .object (← createArrayFromList [k.toValue, v])

/-- List the enumerable properties of keys, behind those in `acc`. -/
def listProperties (o : ObjectId) (kind : EnumerableKind) :
    List PropertyKey → List Value → Program σ (List Value)
  | [], acc => return acc.reverse
  | k :: rest, acc => do
    match ← getOwnProperty o k with
    | some p =>
      if p.enumerable then
        let v ← listProperty o k kind
        listProperties o kind rest (v :: acc)
      else listProperties o kind rest acc
    | none => listProperties o kind rest acc

/-- List the enumerable own properties of an object, symbols left out. -/
def enumerableOwnProperties (o : ObjectId) (kind : EnumerableKind) : Program σ (List Value) := do
  let keys ← ownKeys o
  listProperties o kind (keys.filter fun k => !k.isSymbol) []

/-- Copy the enumerable properties of keys to another object. -/
def copyProperties (target source : ObjectId) : List PropertyKey → Program σ Unit
  | [] => return ()
  | k :: rest => do
    match ← getOwnProperty source k with
    | some p =>
      if p.enumerable then
        createDataPropertyOrThrow target k (← get source k)
      copyProperties target source rest
    | none => copyProperties target source rest

/-- Copy the enumerable own properties of a value to an object, except some. -/
def copyDataProperties (target : ObjectId) (source : Value) (excluded : List PropertyKey) :
    Program σ Unit := do
  if source.isNullish then return ()
  else
    let o ← toObject source
    let keys ← ownKeys o
    copyProperties target o (keys.filter fun k => k ∉ excluded)

/-- Whether an object has the property that a value names. -/
def hasPropertyNamed (v key : Value) : Program σ Bool := do
  match v with
  | .object o =>
    let k ← toPropertyKey key
    hasProperty o k
  | v => raise (.notObject (← valueText v))

end Program

end Ecma
