import Ecma.Number.BigInt
import Ecma.Operation.Conversion
import Ecma.Text.Units

/-!
# Loose equality and order

Both convert their operands and then compare primitive values by a rule that runs
no code. Loose equality converts an object only against a primitive value, and
then it alone; the rule for primitive values is symmetric, so which operand the
object was makes no difference. Order converts both operands, the left one first
unless it is told otherwise, and is undecided where a number or an unreadable
text takes part that compares with nothing.
-/

namespace Ecma

namespace Value

/-- A boolean as a number, any other value as it is. -/
def unboolean : Value → Value
  | boolean b => number (.ofBool b)
  | v => v

/-- Loose equality of two primitive values that are no booleans. -/
def looselyEqualPrimitives : Value → Value → Bool
  | null, undefined | undefined, null => true
  | number n, string s | string s, number n => n.equals (stringToNumber s)
  | bigint n, string s | string s, bigint n => stringToBigInt s = some n
  | bigint n, number x | number x, bigint n => Double.compareInt n x = some .eq
  | x, y => x.strictEquals y

/-- Loose equality of two primitive values. -/
def looselyEqual (x y : Value) : Bool :=
  if x.type = y.type then x.strictEquals y
  else x.unboolean.looselyEqualPrimitives y.unboolean

end Value

namespace Numeric

/-- Whether a numeric is less than another; `none` if they do not compare. -/
def lessThan : Numeric → Numeric → Option Bool
  | number a, number b => if a.isNaN || b.isNaN then none else some (a.lessThan b)
  | bigint a, bigint b => some (a < b)
  | bigint a, number b => (Double.compareInt a b).map (· = .lt)
  | number a, bigint b => (Double.compareInt b a).map (· = .gt)

end Numeric

namespace Value

/-- Whether a primitive value is less than another; `none` if they do not
compare. Two texts compare as texts, a text and an integer as integers. -/
def lessThan (x y : Value) : Except Cause (Option Bool) :=
  match x, y with
  | string a, string b => .ok (some (Text.compareText a b = .lt))
  | bigint a, string b => .ok ((stringToBigInt b).map fun b => a < b)
  | string a, bigint b => .ok ((stringToBigInt a).map fun a => a < b)
  | x, y => do
    let a ← x.primitiveToNumeric
    let b ← y.primitiveToNumeric
    return a.lessThan b

end Value

namespace Program

variable {σ : Type}

/-- Loose equality of an object with a value that is none. -/
def looselyEqualObject (o : ObjectId) (v : Value) : Program σ Bool := do
  if v.isNullish then return (← options).htmlDdaObjects && (← traits o).isHtmlDda
  else
    let p ← objectToPrimitive o .default
    return p.looselyEqual v.unboolean

/-- Loose equality. -/
def looselyEqual (x y : Value) : Program σ Bool :=
  match x, y with
  | .object a, .object b => pure (a = b)
  | .object o, v => looselyEqualObject o v
  | v, .object o => looselyEqualObject o v
  | x, y => pure (x.looselyEqual y)

/-- Whether `x` is less than `y`; `none` if they do not compare. `leftFirst` says
which of them is converted first. -/
def compare (x y : Value) (leftFirst : Bool) : Program σ (Option Bool) := do
  if leftFirst then
    let p ← toPrimitive x .number
    let q ← toPrimitive y .number
    ofExcept (p.lessThan q)
  else
    let q ← toPrimitive y .number
    let p ← toPrimitive x .number
    ofExcept (p.lessThan q)

/-- `x < y` -/
def lessThan (x y : Value) : Program σ Bool := do return (← compare x y true) = some true

/-- `x > y` -/
def greaterThan (x y : Value) : Program σ Bool := do return (← compare y x false) = some true

/-- `x <= y` -/
def lessThanOrEqual (x y : Value) : Program σ Bool := do return (← compare y x false) = some false

/-- `x >= y` -/
def greaterThanOrEqual (x y : Value) : Program σ Bool := do
  return (← compare x y true) = some false

end Program

end Ecma
