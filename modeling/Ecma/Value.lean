import Ecma.Simd
import Ecma.Symbol
import Ecma.Number.Literal
import Ecma.Text.Quoted

/-!
# Values and the equalities that run no code

A value is a primitive or a reference to an object. Three equalities compare
values without consulting any object: `sameValue` tells the zeros apart and
equates not-a-number with itself, `sameValueZero` equates the zeros too, and
`strictEquals` equates the zeros but not not-a-number. They differ on numbers and
lanes alone.
-/

namespace Ecma

/-- The identity of an object: its place in the heap. -/
structure ObjectId where
  index : Nat
  deriving DecidableEq, Repr, Inhabited

/-- A value of the language. -/
inductive Value where
  | undefined
  | null
  | boolean (b : Bool)
  | number (n : Double)
  | string (s : String)
  | symbol (s : Symbol)
  | bigint (n : Int)
  | simd (v : Simd)
  | object (o : ObjectId)
  deriving DecidableEq, Repr, Inhabited

/-- The type of a value. -/
inductive ValueType where
  | undefined
  | null
  | boolean
  | number
  | string
  | symbol
  | bigint
  | simd
  | object
  deriving DecidableEq, Repr

namespace ValueType

/-- All types. -/
def all : List ValueType :=
  [undefined, null, boolean, number, string, symbol, bigint, simd, object]

/-- The name of a type. -/
def name : ValueType → String
  | undefined => "Undefined"
  | null => "Null"
  | boolean => "Boolean"
  | number => "Number"
  | string => "String"
  | symbol => "Symbol"
  | bigint => "BigInt"
  | simd => "Simd"
  | object => "Object"

/-- The type of a name. -/
def ofName? (s : String) : Option ValueType := all.find? fun t => t.name = s

end ValueType

/-- A value is not of the type that a caller relied on. -/
structure TypeMismatch where
  expected : ValueType
  found : ValueType
  deriving DecidableEq, Repr

/-- What is said of a value of the wrong type. -/
def TypeMismatch.message (e : TypeMismatch) : String :=
  let article := if e.expected = .object then "an" else "a"
  "expected " ++ article ++ " " ++ e.expected.name ++ ", found " ++ e.found.name

namespace Value

/-- The type of a value. -/
def type : Value → ValueType
  | undefined => .undefined
  | null => .null
  | boolean _ => .boolean
  | number _ => .number
  | string _ => .string
  | symbol _ => .symbol
  | bigint _ => .bigint
  | simd _ => .simd
  | object _ => .object

/-- Undefined or null. -/
def isNullish : Value → Bool
  | undefined | null => true
  | _ => false

/-- A reference to an object. -/
def isObject : Value → Bool
  | object _ => true
  | _ => false

/-- The object that a value refers to. -/
def object? : Value → Option ObjectId
  | object o => some o
  | _ => none

/-- The object that may be there, or undefined. -/
def ofObject? : Option ObjectId → Value
  | some o => object o
  | none => undefined

/-- A number without a fraction. -/
def isInteger : Value → Bool
  | number n => n.isIntegral
  | _ => false

/-- A string or a symbol. -/
def isPropertyKey : Value → Bool
  | string _ | symbol _ => true
  | _ => false

/-! ## Reading a value of a known type -/

/-- The number that a value must be. -/
def expectNumber : Value → Except TypeMismatch Double
  | number n => .ok n
  | v => .error ⟨.number, v.type⟩

/-- The boolean that a value must be. -/
def expectBoolean : Value → Except TypeMismatch Bool
  | boolean b => .ok b
  | v => .error ⟨.boolean, v.type⟩

/-- The string that a value must be. -/
def expectString : Value → Except TypeMismatch String
  | string s => .ok s
  | v => .error ⟨.string, v.type⟩

/-- The object that a value must be. -/
def expectObject : Value → Except TypeMismatch ObjectId
  | object o => .ok o
  | v => .error ⟨.object, v.type⟩

/-! ## Equality without code -/

/-- Two values are equal, numbers and lanes being compared by `rel`. -/
def equalWith (rel : Double → Double → Bool) : Value → Value → Bool
  | number a, number b => rel a b
  | simd a, simd b => a.lanewise rel b
  | undefined, undefined => true
  | null, null => true
  | boolean a, boolean b => a = b
  | string a, string b => a = b
  | symbol a, symbol b => a = b
  | bigint a, bigint b => a = b
  | object a, object b => a = b
  | _, _ => false

/-- Not-a-number equals itself, the zeros differ. -/
def sameValue : Value → Value → Bool := equalWith Double.sameValue

/-- Not-a-number equals itself, the zeros are equal. -/
def sameValueZero : Value → Value → Bool := equalWith Double.sameValueZero

/-- Not-a-number equals nothing, the zeros are equal. -/
def strictEquals : Value → Value → Bool := equalWith Double.equals

/-! ## Values as text -/

/-- A value as text, objects by the class that `className` gives. -/
def toTextWith (className : ObjectId → String) : Value → String
  | undefined => "undefined"
  | null => "null"
  | boolean b => if b then "true" else "false"
  | number n => n.toText
  | string s => s
  | symbol s => s.toText
  | bigint n => bigIntToString n ++ "n"
  | simd v => v.toText
  | object o => "[object " ++ className o ++ "]"

/-- A value as text for diagnostics: as `toTextWith`, with strings quoted. -/
def inspectWith (className : ObjectId → String) : Value → String
  | string s => Text.quote s
  | v => v.toTextWith className

end Value

end Ecma
