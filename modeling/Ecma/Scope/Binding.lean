import Ecma.Dictionary
import Ecma.Failure

/-!
# Bindings

A table of bindings gives names values. A binding is created uninitialized, is
initialized once, and can from then on be read and, if it is mutable, assigned. A
binding may also be imported: it then stands for one of another module and is
never assigned.

Creating a name twice, and initializing or reading a name that is not there, are
faults: scopes are built by code that knows which names it declared. Touching a
binding too early, or assigning a constant, are failures of the program.
-/

namespace Ecma

/-- What a binding holds. -/
inductive BindingSlot where
  | uninitialized
  | value (v : Value)
  /-- a binding of another module -/
  | imported (module : ModuleId) (name : String)
  deriving DecidableEq, Repr

/-- A binding. -/
structure Binding where
  /-- may be assigned once it is initialized -/
  isMutable : Bool
  /-- may be deleted -/
  isDeletable : Bool
  /-- assigning it fails where it would silently do nothing -/
  isStrict : Bool
  slot : BindingSlot
  deriving DecidableEq, Repr

namespace Binding

/-- A fresh mutable binding. -/
def newMutable (deletable : Bool) : Binding := ⟨true, deletable, false, .uninitialized⟩

/-- A fresh immutable binding. -/
def newImmutable (strict : Bool) : Binding := ⟨false, false, strict, .uninitialized⟩

/-- A binding that stands for one of another module. -/
def newImport (module : ModuleId) (name : String) : Binding :=
  ⟨false, false, true, .imported module name⟩

/-- The binding is no longer uninitialized. -/
def isInitialized (b : Binding) : Bool := b.slot != .uninitialized

/-- The marks of a binding as the bits of a number: mutable, deletable, strict. -/
def marks (b : Binding) : Nat := b.isMutable.toNat + 2 * b.isDeletable.toNat + 4 * b.isStrict.toNat

end Binding

/-- A table of bindings. -/
abbrev Bindings := Dictionary String Binding

namespace Bindings

/-- All bindings in the order of their names. -/
def sorted (t : Bindings) : List (String × Binding) :=
  t.toList.mergeSort fun x y => decide (x.1 ≤ y.1)

/-- Add a binding under a name that has none. -/
def create (t : Bindings) (name : String) (b : Binding) : Outcome Bindings :=
  if t.contains name then .fault (.bindingExists name) else .value (t.insert name b)

/-- Give a binding its first value. -/
def init (t : Bindings) (name : String) (v : Value) : Outcome Bindings :=
  match t.get? name with
  | none => .fault (.bindingMissing name)
  | some b =>
    if b.isInitialized then .fault (.bindingInitialized name)
    else .value (t.insert name { b with slot := .value v })

/-- Assign a binding. Sloppy code creates a name that is missing and does not
notice that a constant keeps its value. -/
def assign (t : Bindings) (name : String) (v : Value) (strict : Bool) : Outcome Bindings :=
  match t.get? name with
  | none =>
    if strict then .raise (.notDefined name)
    else .value (t.insert name { Binding.newMutable true with slot := .value v })
  | some b =>
    if !b.isInitialized then .raise (.uninitialized name)
    else if b.isMutable then .value (t.insert name { b with slot := .value v })
    else if strict || b.isStrict then .raise .constantAssignment
    else .value t

/-- The value of a binding that is no import. -/
def read (t : Bindings) (name : String) : Outcome Value :=
  match t.get? name with
  | none => .fault (.bindingMissing name)
  | some b =>
    match b.slot with
    | .value v => .value v
    | .uninitialized => .raise (.uninitialized name)
    | .imported _ _ => .fault (.importOutsideModule name)

/-- The module and the name that a binding is imported from. -/
def imported? (t : Bindings) (name : String) : Option (ModuleId × String) :=
  match t.get? name with
  | some ⟨_, _, _, .imported m target⟩ => some (m, target)
  | _ => none

/-- Delete a binding. A missing one counts as deleted, one that is not deletable
stays. -/
def delete (t : Bindings) (name : String) : Bool × Bindings :=
  match t.get? name with
  | none => (true, t)
  | some b => if b.isDeletable then (true, t.erase name) else (false, t)

end Bindings

/-- A change of a table of bindings. -/
inductive BindingCommand where
  | create (name : String) (b : Binding)
  | init (name : String) (v : Value)
  | assign (name : String) (v : Value) (strict : Bool)
  | delete (name : String)

namespace BindingCommand

/-- Carry out a change; the answer is `false` for a binding that could not be
deleted. -/
def apply (t : Bindings) : BindingCommand → Outcome (Bool × Bindings)
  | create name b => do return (true, ← t.create name b)
  | init name v => do return (true, ← t.init name v)
  | assign name v strict => do return (true, ← t.assign name v strict)
  | delete name => .value (t.delete name)

end BindingCommand

end Ecma
