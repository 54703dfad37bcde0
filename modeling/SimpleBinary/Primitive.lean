import SimpleBinary.Bytes
import SimpleBinary.Scalar

namespace SimpleBinary

inductive Primitive where
  | char
  | int8
  | int16
  | int32
  | int64
  | uint8
  | uint16
  | uint32
  | uint64
  | float
  | double
  deriving DecidableEq, Repr

namespace Primitive

open scoped Power

def size : Primitive → Nat
  | char | int8 | uint8 => 1
  | int16 | uint16 => 2
  | int32 | uint32 | float => 4
  | int64 | uint64 | double => 8

def width (p : Primitive) : Nat :=
  8 * p.size

def name : Primitive → String
  | char => "char"
  | int8 => "int8"
  | int16 => "int16"
  | int32 => "int32"
  | int64 => "int64"
  | uint8 => "uint8"
  | uint16 => "uint16"
  | uint32 => "uint32"
  | uint64 => "uint64"
  | float => "float"
  | double => "double"

def all : List Primitive :=
  [char, int8, int16, int32, int64, uint8, uint16, uint32, uint64, float, double]

def ofName? (name : String) : Option Primitive :=
  all.find? (·.name == name)

def isUnsigned : Primitive → Bool
  | char | uint8 | uint16 | uint32 | uint64 => true
  | _ => false

def isFloat : Primitive → Bool
  | float | double => true
  | _ => false

def rawMax (p : Primitive) : Nat :=
  2 ^ p.width - 1

def null (p : Primitive) : Scalar :=
  match p with
  | char => .uint 0
  | int8 | int16 | int32 | int64 => .int (Int64.ofInt (-2 ^ (p.width - 1)))
  | uint8 | uint16 | uint32 | uint64 => .uint (UInt64.ofNat p.rawMax)
  | float | double => .float .nan

def least (p : Primitive) : Scalar :=
  match p with
  | char => .uint 0x20
  | int8 | int16 | int32 | int64 => .int (Int64.ofInt (-2 ^ (p.width - 1) + 1))
  | uint8 | uint16 | uint32 | uint64 => .uint 0
  | float => .float (Binary32.widen ⟨0x00800000⟩)
  | double => .float ⟨0x0010000000000000⟩

def greatest (p : Primitive) : Scalar :=
  match p with
  | char => .uint 0x7e
  | int8 | int16 | int32 | int64 => .int (Int64.ofInt (2 ^ (p.width - 1) - 1))
  | uint8 | uint16 | uint32 | uint64 => .uint (UInt64.ofNat (p.rawMax - 1))
  | float => .float (Binary32.widen ⟨0x7f7fffff⟩)
  | double => .float ⟨0x7fefffffffffffff⟩

def equal (p : Primitive) (a b : Scalar) : Bool :=
  if p.isFloat then
    if b.toBinary64.isNaN then a.toBinary64.isNaN else a.toBinary64.equal b.toBinary64
  else if p.isUnsigned then a.toUInt64 == b.toUInt64
  else a.toInt64 == b.toInt64

/-- The number whose lowest bytes encode the value: two's complement of a signed integer, the
pattern of a float. -/
def toRaw (p : Primitive) (value : Scalar) : Nat :=
  match p with
  | char | uint8 | uint16 | uint32 | uint64 => value.toUInt64.toNat
  | int8 | int16 | int32 | int64 => value.toInt64.toUInt64.toNat
  | float => value.toBinary64.narrow.bits.toNat
  | double => value.toBinary64.bits.toNat

def ofRaw (p : Primitive) (raw : Nat) : Scalar :=
  match p with
  | char | uint8 | uint16 | uint32 | uint64 => .uint (UInt64.ofNat raw)
  | int8 | int16 | int32 | int64 => .int (Int64.ofInt ((raw : Int).bmod (2 ^ p.width)))
  | float => .float (Binary32.widen ⟨UInt32.ofNat raw⟩)
  | double => .float ⟨UInt64.ofNat raw⟩

def encode (p : Primitive) (value : Scalar) : Bytes :=
  LittleEndian.encode p.size (p.toRaw value)

def decode (p : Primitive) (bytes : Bytes) : Scalar :=
  p.ofRaw (LittleEndian.decode (bytes.take p.size))

@[simp] theorem length_encode (p : Primitive) (value : Scalar) :
    (p.encode value).length = p.size :=
  LittleEndian.length_encode _ _

theorem size_pos (p : Primitive) : 0 < p.size := by
  cases p <;> decide

theorem size_lt (p : Primitive) : p.size < UInt64.size := by
  cases p <;> decide

theorem size_dvd (p : Primitive) : p.size ∣ UInt64.size := by
  cases p <;> decide

end Primitive

end SimpleBinary
