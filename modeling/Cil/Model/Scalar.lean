import Cil.Model.TypeSig

/-!
Values of the simple types. Floating-point values are given by their bits, so that two values are
equal only if they are written the same.
-/

namespace Cil

inductive Scalar
  | boolean (v : Bool)
  | char (v : UInt16)
  | int8 (v : Int8)
  | uint8 (v : UInt8)
  | int16 (v : Int16)
  | uint16 (v : UInt16)
  | int32 (v : Int32)
  | uint32 (v : UInt32)
  | int64 (v : Int64)
  | uint64 (v : UInt64)
  | float32 (bits : UInt32)
  | float64 (bits : UInt64)
  deriving DecidableEq

namespace Scalar

def type : Scalar → Primitive
  | boolean _ => .boolean
  | char _ => .char
  | int8 _ => .int8
  | uint8 _ => .uint8
  | int16 _ => .int16
  | uint16 _ => .uint16
  | int32 _ => .int32
  | uint32 _ => .uint32
  | int64 _ => .int64
  | uint64 _ => .uint64
  | float32 _ => .float32
  | float64 _ => .float64

/-- Whether the value can be the underlying value of an enumeration. -/
def isIntegral : Scalar → Bool
  | float32 _ | float64 _ => false
  | _ => true

/-- The value in its own width, the lowest byte first. -/
def bytes : Scalar → Bytes
  | boolean v => [if v then 1 else 0]
  | char v => Bytes.le 2 v.toNat
  | int8 v => Bytes.le 1 v.toUInt8.toNat
  | uint8 v => Bytes.le 1 v.toNat
  | int16 v => Bytes.le 2 v.toUInt16.toNat
  | uint16 v => Bytes.le 2 v.toNat
  | int32 v => Bytes.le 4 v.toUInt32.toNat
  | uint32 v => Bytes.le 4 v.toNat
  | int64 v => Bytes.le 8 v.toUInt64.toNat
  | uint64 v => Bytes.le 8 v.toNat
  | float32 bits => Bytes.le 4 bits.toNat
  | float64 bits => Bytes.le 8 bits.toNat

end Scalar

/-- A value known at compile time. -/
inductive Constant
  | scalar (v : Scalar)
  | string (v : String)
  | null
  deriving DecidableEq

namespace Constant

/-- The null constant is typed as a class. -/
def elementType : Constant → UInt8
  | scalar v => v.type.elementType
  | string _ => ElementType.string
  | null => ElementType.reference

/-- Texts are written as UTF-16, null as a zero word. -/
def bytes : Constant → Bytes
  | scalar v => v.bytes
  | string v => (Bytes.units v).flatMap fun u => Bytes.le 2 u.toNat
  | null => Bytes.zeros 4

end Constant
end Cil
