import Ecma.Value

/-!
# Properties and descriptors

A `Property` is what an object stores: a value that may be writable, or a getter
and a setter, with two flags. A `Descriptor` is a request about a property, in
which every field may be absent. A descriptor **completes** to a property by
taking defaults for what is absent, and every property is the completion of its
own descriptor.
-/

namespace Ecma

/-- A partial description of a property. -/
structure Descriptor where
  value : Option Value := none
  writable : Option Bool := none
  get : Option Value := none
  set : Option Value := none
  enumerable : Option Bool := none
  configurable : Option Bool := none
  deriving DecidableEq, Repr, Inhabited

/-- What a property holds. -/
inductive Slot where
  | data (value : Value) (writable : Bool)
  | accessor (get set : Option ObjectId)
  deriving DecidableEq, Repr

/-- A stored property. -/
structure Property where
  slot : Slot
  enumerable : Bool
  configurable : Bool
  deriving DecidableEq, Repr

namespace Descriptor

/-- A descriptor of a data property with every field present. -/
def data (value : Value) (writable enumerable configurable : Bool) : Descriptor where
  value := some value
  writable := some writable
  enumerable := some enumerable
  configurable := some configurable

/-- A descriptor of an accessor property with every field present. -/
def accessor (get set : Option ObjectId) (enumerable configurable : Bool) : Descriptor where
  get := some (.ofObject? get)
  set := some (.ofObject? set)
  enumerable := some enumerable
  configurable := some configurable

/-- A descriptor that gives a value only. -/
def ofValue (value : Value) : Descriptor := { value := some value }

/-- Names a getter or a setter. -/
def isAccessor (d : Descriptor) : Bool := d.get.isSome || d.set.isSome

/-- Names a value or whether it is writable. -/
def isData (d : Descriptor) : Bool := d.value.isSome || d.writable.isSome

/-- Is neither about a value nor about accessors. -/
def isGeneric (d : Descriptor) : Bool := !d.isAccessor && !d.isData

/-- The descriptor with defaults for absent fields: those of a data property,
unless it is about accessors alone. -/
def complete (d : Descriptor) : Descriptor :=
  let filled :=
    if d.isGeneric || d.isData then
      { d with value := some (d.value.getD .undefined), writable := some (d.writable.getD false) }
    else
      { d with get := some (d.get.getD .undefined), set := some (d.set.getD .undefined) }
  { filled with
    enumerable := some (d.enumerable.getD false)
    configurable := some (d.configurable.getD false) }

/-- The property that a descriptor describes, with defaults for absent fields. -/
def toProperty (d : Descriptor) : Property where
  slot :=
    if d.isAccessor then .accessor (d.get.bind Value.object?) (d.set.bind Value.object?)
    else .data (d.value.getD .undefined) (d.writable.getD false)
  enumerable := d.enumerable.getD false
  configurable := d.configurable.getD false

end Descriptor

namespace Property

/-- A data property. -/
def data (value : Value) (writable enumerable configurable : Bool) : Property :=
  ⟨.data value writable, enumerable, configurable⟩

/-- An accessor property. -/
def accessor (get set : Option ObjectId) (enumerable configurable : Bool) : Property :=
  ⟨.accessor get set, enumerable, configurable⟩

/-- Holds a value. -/
def isData (p : Property) : Bool :=
  match p.slot with
  | .data .. => true
  | .accessor .. => false

/-- Holds a getter and a setter. -/
def isAccessor (p : Property) : Bool := !p.isData

/-- The value of a data property. -/
def value? (p : Property) : Option Value :=
  match p.slot with
  | .data v _ => some v
  | .accessor .. => none

/-- The property is a data property and may be assigned. -/
def isWritable (p : Property) : Bool :=
  match p.slot with
  | .data _ w => w
  | .accessor .. => false

/-- The descriptor that gives every field of a property. -/
def toDescriptor (p : Property) : Descriptor :=
  match p.slot with
  | .data v w => .data v w p.enumerable p.configurable
  | .accessor g s => .accessor g s p.enumerable p.configurable

/-- Every property is the completion of its own descriptor. -/
@[simp] theorem toProperty_toDescriptor (p : Property) : p.toDescriptor.toProperty = p := by
  obtain ⟨slot, enumerable, configurable⟩ := p
  cases slot with
  | data v w => rfl
  | accessor g s => cases g <;> cases s <;> rfl

/-- What a slot holds after a descriptor of its kind was applied to it. -/
def updateSlot (d : Descriptor) : Slot → Slot
  | .data v w => .data (d.value.getD v) (d.writable.getD w)
  | .accessor g s =>
    .accessor (match d.get with | some v => v.object? | none => g)
      (match d.set with | some v => v.object? | none => s)

/-- The property with the fields that a descriptor gives. -/
def update (p : Property) (d : Descriptor) : Property where
  slot := updateSlot d p.slot
  enumerable := d.enumerable.getD p.enumerable
  configurable := d.configurable.getD p.configurable

/-- The property turned into one of the other kind, with defaults for what it
holds. -/
def convert (p : Property) : Property :=
  match p.slot with
  | .data .. => .accessor none none p.enumerable p.configurable
  | .accessor .. => .data .undefined false p.enumerable p.configurable

end Property

end Ecma
