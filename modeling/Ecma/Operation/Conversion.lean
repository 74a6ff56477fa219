import Ecma.Number.Canonical
import Ecma.Operation.Property

/-!
# Conversions

An object becomes a primitive value by asking it: its own conversion method if it
has one, otherwise `valueOf` and `toString` in the order that the hint asks for.
Everything after that is about primitive values and runs no code; those rules are
functions of their own.
-/

namespace Ecma

/-- What kind of primitive value is wanted. -/
inductive Hint where
  | default
  | number
  | string
  deriving DecidableEq, Repr

/-- The name of a hint. -/
def Hint.name : Hint → String
  | default => "default"
  | number => "number"
  | string => "string"

/-- The methods to try for a hint, in order. -/
def Hint.methodNames : Hint → List String
  | string => ["toString", "valueOf"]
  | _ => ["valueOf", "toString"]

/-- A number or an integer of any size. -/
inductive Numeric where
  | number (n : Double)
  | bigint (n : Int)
  deriving DecidableEq, Repr

/-- A numeric as a value. -/
def Numeric.toValue : Numeric → Value
  | number n => .number n
  | bigint n => .bigint n

/-! ## Conversions of primitive values -/

namespace Value

/-- The number that a primitive value stands for. -/
def primitiveToNumber : Value → Except Cause Double
  | undefined => .ok .nan
  | null => .ok .zero
  | boolean b => .ok (.ofBool b)
  | number n => .ok n
  | string s => .ok (stringToNumber s)
  | symbol _ => .error .symbolToNumber
  | bigint _ => .error .bigintToNumber
  | simd _ => .error .simdToNumber
  | object _ => .error .noPrimitive

/-- The numeric that a primitive value stands for. -/
def primitiveToNumeric : Value → Except Cause Numeric
  | bigint n => .ok (.bigint n)
  | v => v.primitiveToNumber.map .number

/-- The text that a primitive value stands for, numbers by the given printer. -/
def primitiveToStringBy (printer : Printer) : Value → Except Cause String
  | string s => .ok s
  | undefined => .ok "undefined"
  | null => .ok "null"
  | boolean b => .ok (if b then "true" else "false")
  | number n => .ok (n.toTextBy printer)
  | symbol _ => .error .symbolToString
  | bigint n => .ok (bigIntToString n)
  | simd v => .ok (v.toTextBy printer)
  | object _ => .error .noPrimitive

/-- The text that a primitive value stands for. -/
def primitiveToString : Value → Except Cause String := primitiveToStringBy .standard

end Value

namespace Double

/-- The length that a number stands for: truncated, and from zero to
`maxLength`. -/
def toLength (x : Double) : Nat :=
  let n := x.toInteger
  if n.isInfinite then (if n.isNegative then 0 else maxLength)
  else min n.truncate.toNat maxLength

/-- The index that a number stands for: truncated, and within the lengths. -/
def toIndex (x : Double) : Except Cause Nat :=
  let n := x.toInteger
  if n.lessThan zero then .error .invalidIndex
  else if (ofNat n.toLength).equals n then .ok n.toLength
  else .error .invalidIndex

/-- The integer key that a number is. -/
def toIndexKey? (x : Double) : Option Nat :=
  if x.isIntegral && !(x.lessThan zero) && x.lessThan (ofNat maxLength) then
    some x.truncate.toNat
  else
    none

end Double

namespace Program

variable {σ : Type}

/-! ## Objects to primitive values -/

/-- Try methods one after the other until one gives a primitive value. -/
def tryMethods (o : ObjectId) : List String → Program σ Value
  | [] => raise .noPrimitive
  | name :: rest => do
    match ← get o (.ofString name) with
    | .object f =>
      if ← isCallableObject f then
        let result ← callObject f (.object o) []
        if result.isObject then tryMethods o rest else return result
      else tryMethods o rest
    | _ => tryMethods o rest

/-- The primitive value of an object without a conversion method of its own. -/
def ordinaryToPrimitive (o : ObjectId) (hint : Hint) : Program σ Value :=
  tryMethods o hint.methodNames

/-- The primitive value of an object. -/
def objectToPrimitive (o : ObjectId) (hint : Hint) : Program σ Value := do
  match ← getMethod (.object o) (.wellKnown .toPrimitive) with
  | some f =>
    let result ← callObject f (.object o) [.string hint.name]
    if result.isObject then raise .conversionGaveObject else return result
  | none => ordinaryToPrimitive o hint

/-- The primitive value that a value is or becomes. -/
def toPrimitive (v : Value) (hint : Hint) : Program σ Value :=
  match v with
  | .object o => objectToPrimitive o hint
  | v => pure v

/-! ## Values to numbers and text -/

/-- The truth of a value. -/
def toBoolean : Value → Program σ Bool
  | .undefined | .null => pure false
  | .boolean b => pure b
  | .number n => pure (!n.isZero && !n.isNaN)
  | .string s => pure (!s.isEmpty)
  | .symbol _ | .simd _ => pure true
  | .bigint n => pure (n != 0)
  | .object o => do return !(← traits o).isHtmlDda

/-- The number that a value becomes. -/
def toNumber (v : Value) : Program σ Double := do
  ofExcept (← toPrimitive v .number).primitiveToNumber

/-- The numeric that a value becomes. -/
def toNumeric (v : Value) : Program σ Numeric := do
  ofExcept (← toPrimitive v .number).primitiveToNumeric

/-- The text that a value becomes, numbers by the given printer. -/
def toTextBy (printer : Printer) (v : Value) : Program σ String := do
  ofExcept ((← toPrimitive v .string).primitiveToStringBy printer)

/-- The text that a value becomes. -/
def toText (v : Value) : Program σ String := toTextBy .standard v

/-- The integral number that a value becomes. -/
def toInteger (v : Value) : Program σ Double := do return (← toNumber v).toInteger

/-- The unsigned integer of the given width that a value becomes. -/
def toUint (width : Nat) (v : Value) : Program σ Nat := do return (← toNumber v).toUint width

/-- The signed integer of the given width that a value becomes. -/
def toInt (width : Nat) (v : Value) : Program σ Int := do return (← toNumber v).toInt width

/-- The integer from `0` to `255` nearest to a value. -/
def toUint8Clamp (v : Value) : Program σ Nat := do return (← toNumber v).toUint8Clamp

/-- The length that a value becomes. -/
def toLength (v : Value) : Program σ Nat := do return (← toNumber v).toLength

/-- The index that a value becomes; undefined is zero. -/
def toIndex (v : Value) : Program σ Nat := do
  match v with
  | .undefined => return 0
  | v => ofExcept (← toNumber v).toIndex

/-! ## Values to property keys -/

/-- The key that a primitive value other than a symbol stands for. -/
def keyOfPrimitive (printer : Printer) (v : Value) : Program σ PropertyKey := do
  return .ofString (← ofExcept (v.primitiveToStringBy printer))

/-- The property key that a value becomes, numbers by the given printer. An integral
number within the integer keys is one already. -/
def toPropertyKeyBy (printer : Printer) (v : Value) : Program σ PropertyKey := do
  match v with
  | .string s => return .ofString s
  | .symbol s => return .symbol s
  | v =>
    match v with
    | .number n =>
      match n.toIndexKey? with
      | some i => return .index i
      | none => keyOfPrimitive printer v
    | v =>
      match ← toPrimitive v .string with
      | .symbol s => return .symbol s
      | v => keyOfPrimitive printer v

/-- The property key that a value becomes. -/
def toPropertyKey (v : Value) : Program σ PropertyKey := toPropertyKeyBy .standard v

/-- The value counts as an array. -/
def isArray : Value → Program σ Bool
  | .object o => isArrayObject o
  | _ => pure false

end Program

end Ecma
