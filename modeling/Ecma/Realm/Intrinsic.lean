import Ecma.Object.Basic

/-!
# The objects that a realm starts with

New objects inherit from intrinsic ones: each type of value has a prototype, and
all of these inherit from the prototype of objects, as does the global object.
They are the first objects of every heap, so their identities are known in
advance.
-/

namespace Ecma

/-- The objects that a realm starts with. -/
inductive Intrinsic where
  | objectPrototype
  | functionPrototype
  | arrayPrototype
  | iteratorPrototype
  | booleanPrototype
  | numberPrototype
  | stringPrototype
  | symbolPrototype
  | bigintPrototype
  | simdPrototype
  | global
  deriving DecidableEq, Repr

namespace Intrinsic

/-- All intrinsic objects, in the order in which they are made. -/
def all : List Intrinsic :=
  [objectPrototype, functionPrototype, arrayPrototype, iteratorPrototype, booleanPrototype,
    numberPrototype, stringPrototype, symbolPrototype, bigintPrototype, simdPrototype, global]

/-- The position of an intrinsic object among all. -/
def position : Intrinsic → Nat
  | objectPrototype => 0
  | functionPrototype => 1
  | arrayPrototype => 2
  | iteratorPrototype => 3
  | booleanPrototype => 4
  | numberPrototype => 5
  | stringPrototype => 6
  | symbolPrototype => 7
  | bigintPrototype => 8
  | simdPrototype => 9
  | global => 10

/-- The identity of an intrinsic object. -/
def id (i : Intrinsic) : ObjectId := ⟨i.position⟩

/-- The name of an intrinsic object. -/
def name : Intrinsic → String
  | objectPrototype => "ObjectPrototype"
  | functionPrototype => "FunctionPrototype"
  | arrayPrototype => "ArrayPrototype"
  | iteratorPrototype => "IteratorPrototype"
  | booleanPrototype => "BooleanPrototype"
  | numberPrototype => "NumberPrototype"
  | stringPrototype => "StringPrototype"
  | symbolPrototype => "SymbolPrototype"
  | bigintPrototype => "BigIntPrototype"
  | simdPrototype => "SimdPrototype"
  | global => "Global"

/-- The class of an intrinsic object. -/
def className : Intrinsic → String
  | objectPrototype | global => "Object"
  | functionPrototype => "Function"
  | arrayPrototype => "Array"
  | iteratorPrototype => "Iterator"
  | booleanPrototype => "Boolean"
  | numberPrototype => "Number"
  | stringPrototype => "String"
  | symbolPrototype => "Symbol"
  | bigintPrototype => "BigInt"
  | simdPrototype => "SIMD"

/-- The prototype of an intrinsic object. -/
def parent : Intrinsic → Option ObjectId
  | objectPrototype => none
  | _ => some objectPrototype.id

/-- An intrinsic object as it is made. -/
def object (i : Intrinsic) : Object := .new (.ordinary i.className none false) i.parent

end Intrinsic

end Ecma
