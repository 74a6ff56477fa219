import Ecma.Property.Table

/-!
# Objects and what can be done to one of them

An `Object` is the state of one object: prototype, extensibility, properties and
kind. Everything here concerns a single object and runs no code; what happens
between objects is built on top.

The rule for changing properties is `Descriptor.validate`. It compares a request
with the property that is there and comes to a verdict: refuse, accept and change
nothing, or store a property. A property that is not configurable is the whole
point: no verdict stores a property that loosens it.
-/

namespace Ecma

/-- A piece of code outside the object model, known by its number. -/
structure CodeId where
  index : Nat
  deriving DecidableEq, Repr, Inhabited

/-- The behaviour of an exotic object outside the object model, known by its
number. -/
structure HostId where
  index : Nat
  deriving DecidableEq, Repr, Inhabited

/-- What an object is, apart from its properties. -/
inductive ObjectKind where
  /-- an object with a class for diagnostics, perhaps around a primitive value, and
  perhaps taken for undefined -/
  | ordinary (className : String) (primitive : Option Value) (isHtmlDda : Bool)
  /-- an object with a length that follows its elements -/
  | array
  /-- code that can be called, and perhaps code that constructs -/
  | function (name : String) (call : CodeId) (construct : Option CodeId)
  deriving DecidableEq, Repr

/-- What is known of an object without asking it: none of it ever changes. -/
structure Traits where
  className : String := "Object"
  isCallable : Bool := false
  isConstructor : Bool := false
  isHtmlDda : Bool := false
  primitive : Option Value := none
  deriving DecidableEq, Repr, Inhabited

/-- The traits of objects of a kind. -/
def ObjectKind.traits : ObjectKind → Traits
  | ordinary className primitive isHtmlDda => { className, primitive, isHtmlDda }
  | array => { className := "Array" }
  | function _ _ construct =>
    { className := "Function", isCallable := true, isConstructor := construct.isSome }

/-- The state of an object. -/
structure Object where
  prototype : Option ObjectId
  extensible : Bool
  properties : PropertyTable
  kind : ObjectKind

/-! ## The rule for changing properties -/

/-- What becomes of a request to change a property. -/
inductive Verdict where
  | refuse
  | keep
  | store (p : Property)
  deriving DecidableEq, Repr

/-- The request is granted. -/
def Verdict.isGranted : Verdict → Bool
  | refuse => false
  | _ => true

namespace Descriptor

/-- Asks for a change of the flags of a property that is not configurable. -/
def conflictsWithFlags (d : Descriptor) (p : Property) : Bool :=
  d.configurable = some true || (d.enumerable.isSome && d.enumerable != some p.enumerable)

/-- Asks for another value than `v`, or to make it writable. -/
def conflictsWithValue (d : Descriptor) (v : Value) : Bool :=
  d.writable = some true || d.value.any fun w => !w.sameValue v

/-- Asks for another getter or setter. -/
def conflictsWithAccessors (d : Descriptor) (get set : Option ObjectId) : Bool :=
  (d.set.any fun v => !v.sameValue (.ofObject? set)) ||
    d.get.any fun v => !v.sameValue (.ofObject? get)

/-- The verdict on a request about a property that is there and not
configurable. -/
def validateFixed (d : Descriptor) (p : Property) : Verdict :=
  if d.conflictsWithFlags p then .refuse
  else if d.isGeneric then .store (p.update d)
  else if p.isData != d.isData then .refuse
  else
    match p.slot with
    | .data v false => if d.conflictsWithValue v then .refuse else .keep
    | .data _ true => .store (p.update d)
    | .accessor get set => if d.conflictsWithAccessors get set then .refuse else .keep

/-- The verdict on a request about a property that is there and configurable. -/
def validateConfigurable (d : Descriptor) (p : Property) : Verdict :=
  if d.isGeneric || p.isData = d.isData then .store (p.update d)
  else .store (p.convert.update d)

/-- The verdict on a request about a property. A new property needs an extensible
object; a request that says nothing is granted. -/
def validate (extensible : Bool) (d : Descriptor) : Option Property → Verdict
  | none => if extensible then .store d.toProperty else .refuse
  | some p =>
    if d.isGeneric && d.enumerable.isNone && d.configurable.isNone then .keep
    else if p.configurable then d.validateConfigurable p
    else d.validateFixed p

end Descriptor

/-! ## One object -/

namespace Object

/-- An extensible object without properties. -/
def new (kind : ObjectKind) (prototype : Option ObjectId) : Object where
  prototype := prototype
  extensible := true
  properties := ∅
  kind := kind

/-- The traits of an object. -/
def traits (o : Object) : Traits := o.kind.traits

/-- The own property of a key. -/
def own? (o : Object) (k : PropertyKey) : Option Property := o.properties.get? k

/-- Store a property without asking. -/
def put (o : Object) (k : PropertyKey) (p : Property) : Object :=
  { o with properties := o.properties.insert k p }

/-- Apply a verdict to a key. -/
def apply (o : Object) (k : PropertyKey) : Verdict → Bool × Object
  | .refuse => (false, o)
  | .keep => (true, o)
  | .store p => (true, o.put k p)

/-- Change the property of a key as a descriptor asks, if the rule allows it. -/
def define (o : Object) (k : PropertyKey) (d : Descriptor) : Bool × Object :=
  o.apply k (d.validate o.extensible (o.own? k))

/-- Remove the property of a key, if it is configurable. -/
def delete (o : Object) (k : PropertyKey) : Bool × Object :=
  match o.own? k with
  | none => (true, o)
  | some p =>
    if p.configurable then (true, { o with properties := o.properties.erase k }) else (false, o)

/-- Let no further property be added. -/
def preventExtensions (o : Object) : Object := { o with extensible := false }

/-- The keys of all own properties, in order. -/
def keys (o : Object) : List PropertyKey := o.properties.keys

@[simp] theorem own?_new (kind : ObjectKind) (prototype : Option ObjectId) (k : PropertyKey) :
    (new kind prototype).own? k = none :=
  PropertyTable.get?_empty k

theorem own?_put (o : Object) (k j : PropertyKey) (p : Property) :
    (o.put k p).own? j = if j = k then some p else o.own? j :=
  o.properties.get?_insert k j p

end Object

end Ecma
