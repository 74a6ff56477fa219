import Ecma.Number.Integer
import Ecma.Number.Text

/-!
# Vectors of lanes

A vector value has a shape, which fixes how many lanes there are and what each
lane can hold. Lanes are kept as numbers that the lane type represents exactly:
`LaneShape.coerce` brings any number into the lane type, and a coerced lane is
left alone by coercing it again. Boolean lanes are zero or one.
-/

namespace Ecma

/-- Count and type of the lanes of a vector. -/
inductive LaneShape where
  | float64x2
  | float32x4
  | int32x4
  | int16x8
  | int8x16
  | uint32x4
  | uint16x8
  | uint8x16
  | bool64x2
  | bool32x4
  | bool16x8
  | bool8x16
  deriving DecidableEq, Repr

namespace LaneShape

/-- All shapes. -/
def all : List LaneShape :=
  [float64x2, float32x4, int32x4, int16x8, int8x16, uint32x4, uint16x8, uint8x16, bool64x2,
    bool32x4, bool16x8, bool8x16]

/-- Number of lanes. -/
def lanes : LaneShape → Nat
  | float64x2 | bool64x2 => 2
  | float32x4 | int32x4 | uint32x4 | bool32x4 => 4
  | int16x8 | uint16x8 | bool16x8 => 8
  | int8x16 | uint8x16 | bool8x16 => 16

/-- The name of a shape. -/
def name : LaneShape → String
  | float64x2 => "Float64x2"
  | float32x4 => "Float32x4"
  | int32x4 => "Int32x4"
  | int16x8 => "Int16x8"
  | int8x16 => "Int8x16"
  | uint32x4 => "Uint32x4"
  | uint16x8 => "Uint16x8"
  | uint8x16 => "Uint8x16"
  | bool64x2 => "Bool64x2"
  | bool32x4 => "Bool32x4"
  | bool16x8 => "Bool16x8"
  | bool8x16 => "Bool8x16"

/-- The shape of a name. -/
def ofName? (s : String) : Option LaneShape := all.find? fun shape => shape.name = s

/-- What `typeof` says of a vector of this shape: the name in lower case. -/
def typeName (shape : LaneShape) : String := shape.name.map Char.toLower

/-- Lanes are booleans. -/
def isBoolean : LaneShape → Bool
  | bool64x2 | bool32x4 | bool16x8 | bool8x16 => true
  | _ => false

/-- Lanes are floating-point numbers. -/
def isFloat : LaneShape → Bool
  | float64x2 | float32x4 => true
  | _ => false

/-- The number that a lane holds when it is given `x`. -/
def coerce (x : Double) : LaneShape → Double
  | float64x2 => x
  | float32x4 => x.toSingle
  | int32x4 => .ofInt (x.toInt 32)
  | int16x8 => .ofInt (x.toInt 16)
  | int8x16 => .ofInt (x.toInt 8)
  | uint32x4 => .ofNat (x.toUint 32)
  | uint16x8 => .ofNat (x.toUint 16)
  | uint8x16 => .ofNat (x.toUint 8)
  | bool64x2 | bool32x4 | bool16x8 | bool8x16 => .ofBool (!x.isZero && !x.isNaN)

end LaneShape

/-- A vector value. -/
structure Simd where
  shape : LaneShape
  lanes : List Double
  /-- there are as many lanes as the shape has -/
  length_lanes : lanes.length = shape.lanes
  deriving DecidableEq, Repr

/-- Why a vector cannot be built. -/
inductive LaneError where
  /-- not as many lanes as the shape has -/
  | count (shape : LaneShape) (given : Nat)
  /-- boolean lanes for a shape without them -/
  | notBoolean (shape : LaneShape)
  deriving DecidableEq, Repr

/-- What is said of a vector that cannot be built. -/
def LaneError.message : LaneError → String
  | count shape given =>
    "assertion `left == right` failed: " ++ shape.name ++
      s!" requires {shape.lanes} lanes\n  left: {given}\n right: {shape.lanes}"
  | notBoolean shape => shape.name ++ " is not a boolean SIMD type"

namespace Simd

/-- The vector of the given lanes, each coerced to the lane type. -/
def ofLanes (shape : LaneShape) (lanes : List Double) : Except LaneError Simd :=
  if h : lanes.length = shape.lanes then
    .ok ⟨shape, lanes.map (LaneShape.coerce · shape), (List.length_map _).trans h⟩
  else .error (.count shape lanes.length)

/-- The vector of the given boolean lanes. -/
def ofBools (shape : LaneShape) (lanes : List Bool) : Except LaneError Simd :=
  if shape.isBoolean then ofLanes shape (lanes.map Double.ofBool) else .error (.notBoolean shape)

/-- Same shape, and lanes pairwise in a relation. -/
def lanewise (rel : Double → Double → Bool) (a b : Simd) : Bool :=
  a.shape = b.shape && (a.lanes.zip b.lanes).all fun p => rel p.1 p.2

/-- A lane as text. -/
def laneText (printer : Printer) (shape : LaneShape) (x : Double) : String :=
  if shape.isBoolean then (if x.isZero then "false" else "true") else x.toTextBy printer

/-- A vector as text, its lanes by the given printer. -/
def toTextBy (printer : Printer) (v : Simd) : String :=
  let lanes := v.lanes.map (laneText printer v.shape)
  "SIMD." ++ v.shape.name ++ "(" ++ String.intercalate ", " lanes ++ ")"

/-- A vector as text. -/
def toText (v : Simd) : String := v.toTextBy .standard

end Simd

end Ecma
