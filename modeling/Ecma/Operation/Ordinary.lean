import Ecma.Program.Basic

/-!
# Methods along the prototype chain

How an object answers a request that is not about its own properties alone: it
looks at its own property first and then passes the request on to its prototype.
Each link of the chain is asked through its own methods, so the same code serves
every object that does not answer in another way.
-/

namespace Ecma.Program

variable {σ : Type}

/-- Whether an object or one that it inherits from has a property. -/
def ordinaryHas (o : ObjectId) (k : PropertyKey) : Program σ Bool := do
  match ← getOwnProperty o k with
  | some _ => return true
  | none =>
    match ← getPrototypeOf o with
    | some parent => hasProperty parent k
    | none => return false

/-- The value of a property; a getter runs for `receiver`. -/
def getThrough (p : Property) (receiver : Value) : Program σ Value :=
  match p.slot with
  | .data v _ => return v
  | .accessor (some getter) _ => callObject getter receiver []
  | .accessor none _ => return .undefined

/-- The value of the nearest property; a getter runs for `receiver`. -/
def ordinaryGet (o : ObjectId) (k : PropertyKey) (receiver : Value) : Program σ Value := do
  match ← getOwnProperty o k with
  | some p => getThrough p receiver
  | none =>
    match ← getPrototypeOf o with
    | some parent => getFor parent k receiver
    | none => return .undefined

/-- Store a value on the receiver, whose own property may only have its value
changed. -/
def setOnReceiver (k : PropertyKey) (v receiver : Value) : Program σ Bool := do
  match receiver with
  | .object r =>
    match ← getOwnProperty r k with
    | some p => if p.isWritable then defineOwnProperty r k (.ofValue v) else return false
    | none => defineOwnProperty r k (.data v true true true)
  | _ => return false

/-- Set a value through a property: store it on the receiver if the property is
writable data, call its setter if it has one. -/
def setThrough (p : Property) (k : PropertyKey) (v receiver : Value) : Program σ Bool := do
  match p.slot with
  | .data _ true => setOnReceiver k v receiver
  | .data _ false => return false
  | .accessor _ (some setter) =>
    let _ ← callObject setter receiver [v]
    return true
  | .accessor _ none => return false

/-- Set a value, the own property of the object being known. -/
def ordinarySetWithOwn (o : ObjectId) (k : PropertyKey) (v receiver : Value) :
    Option Property → Program σ Bool
  | some p => setThrough p k v receiver
  | none => do
    match ← getPrototypeOf o with
    | some parent => setFor parent k v receiver
    | none => setThrough (.data .undefined true true true) k v receiver

/-- Set a value through the nearest property. -/
def ordinarySet (o : ObjectId) (k : PropertyKey) (v receiver : Value) : Program σ Bool := do
  let own ← getOwnProperty o k
  ordinarySetWithOwn o k v receiver own

/-- Whether the chain that starts at `start` ends without passing `o`, in at most
`fuel` links. -/
def chainAvoids (o : ObjectId) : Nat → Option ObjectId → Program σ Bool
  | _, none => return true
  | 0, some _ => exhausted
  | fuel + 1, some p => do
    if p = o then return false
    else
      let next ← getPrototypeOf p
      chainAvoids o fuel next

end Ecma.Program
