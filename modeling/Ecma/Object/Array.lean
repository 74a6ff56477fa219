import Ecma.Object.Basic

/-!
# Arrays

An array is an object whose `length` stays above every array index that it has.
The length is an ordinary property. It follows the elements in two ways: defining
an element beyond it raises it, and lowering it deletes the elements that are no
longer below it, from the last one on, until one cannot be deleted.
-/

namespace Ecma

namespace Object

/-- The key of the length. -/
def lengthKey : PropertyKey := .string "length"

theorem lengthKey_ne_index (i : Nat) : lengthKey ≠ .index i := nofun

/-- A length as a property. -/
def lengthProperty (n : Nat) : Property := .data (.number (.ofNat n)) true false false

/-- An array of the given length without elements. -/
def newArray (length : Nat) (prototype : Option ObjectId) : Object :=
  (new .array prototype).put lengthKey (lengthProperty length)

/-- The object is an array. -/
def isArray (o : Object) : Bool := o.kind = .array

/-- The property that holds the length. -/
def ownLength (o : Object) : Property := (o.own? lengthKey).getD (lengthProperty 0)

/-- The length. -/
def length (o : Object) : Nat :=
  match o.ownLength.slot with
  | .data (.number n) _ => if n.isFinite then n.truncate.toNat else 0
  | _ => 0

/-- Delete elements one after the other, up to the first that cannot be deleted;
yields that one. -/
def deleteElements (o : Object) : List Nat → Option Nat × Object
  | [] => (none, o)
  | i :: rest =>
    match o.delete (.index i) with
    | (true, o) => o.deleteElements rest
    | (false, o) => (some i, o)

/-- Lower the length below the present one. It is made non-writable at the end
only, so that it can still be set to where deleting stopped. -/
def shrink (o : Object) (n : Nat) (d : Descriptor) : Bool × Object :=
  let freeze := d.writable = some false
  let request : Descriptor :=
    { d with
      value := some (.number (.ofNat n))
      writable := if freeze then some true else d.writable }
  let old := o.length
  match o.define lengthKey request with
  | (false, o) => (false, o)
  | (true, o) =>
    match o.deleteElements (o.properties.indexed.keysIn n old).reverse with
    | (some i, o) =>
      let stop : Descriptor :=
        { request with
          value := some (.number (.ofNat (i + 1)))
          writable := if freeze then some false else request.writable }
      (false, (o.define lengthKey stop).2)
    | (none, o) =>
      (true, if freeze then (o.define lengthKey { writable := some false }).2 else o)

/-- Set the length to `n` as a descriptor asks. -/
def setLength (o : Object) (n : Nat) (d : Descriptor) : Bool × Object :=
  if o.length ≤ n then o.define lengthKey { d with value := some (.number (.ofNat n)) }
  else if o.ownLength.isWritable then o.shrink n d
  else (false, o)

/-- Define the element at an array index; one beyond the length raises it. -/
def defineElement (o : Object) (i : Nat) (d : Descriptor) : Bool × Object :=
  let old := o.ownLength
  let beyond := o.length ≤ i
  if beyond && !old.isWritable then (false, o)
  else
    match o.define (.index i) d with
    | (false, o) => (false, o)
    | (true, o) =>
      if beyond then
        (true, o.put lengthKey { old with slot := .data (.number (.ofNat (i + 1))) true })
      else
        (true, o)

/-- Define a property of an array other than its length. -/
def defineInArray (o : Object) (k : PropertyKey) (d : Descriptor) : Bool × Object :=
  match k.arrayIndex? with
  | some i => o.defineElement i d
  | none => o.define k d

end Object

end Ecma
