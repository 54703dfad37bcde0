import SimpleBinary.Primitive

namespace SimpleBinary

class Element (α : Type) where
  size : Nat
  decode : Bytes → α
  encode : α → Bytes
  toScalar : α → Scalar
  ofScalar : Scalar → α

namespace Element

instance : Element UInt8 where
  size := 1
  decode bytes := UInt8.ofNat (LittleEndian.decode (bytes.take 1))
  encode value := LittleEndian.encode 1 value.toNat
  toScalar value := .uint value.toUInt64
  ofScalar value := value.toUInt64.toUInt8

instance : Element UInt16 where
  size := 2
  decode bytes := UInt16.ofNat (LittleEndian.decode (bytes.take 2))
  encode value := LittleEndian.encode 2 value.toNat
  toScalar value := .uint value.toUInt64
  ofScalar value := value.toUInt64.toUInt16

instance : Element UInt32 where
  size := 4
  decode bytes := UInt32.ofNat (LittleEndian.decode (bytes.take 4))
  encode value := LittleEndian.encode 4 value.toNat
  toScalar value := .uint value.toUInt64
  ofScalar value := value.toUInt64.toUInt32

instance : Element UInt64 where
  size := 8
  decode bytes := UInt64.ofNat (LittleEndian.decode (bytes.take 8))
  encode value := LittleEndian.encode 8 value.toNat
  toScalar value := .uint value
  ofScalar value := value.toUInt64

instance : Element Int8 where
  size := 1
  decode bytes := Int8.ofNat (LittleEndian.decode (bytes.take 1))
  encode value := LittleEndian.encode 1 value.toUInt8.toNat
  toScalar value := .int value.toInt64
  ofScalar value := value.toInt64.toInt8

instance : Element Int16 where
  size := 2
  decode bytes := Int16.ofNat (LittleEndian.decode (bytes.take 2))
  encode value := LittleEndian.encode 2 value.toUInt16.toNat
  toScalar value := .int value.toInt64
  ofScalar value := value.toInt64.toInt16

instance : Element Int32 where
  size := 4
  decode bytes := Int32.ofNat (LittleEndian.decode (bytes.take 4))
  encode value := LittleEndian.encode 4 value.toUInt32.toNat
  toScalar value := .int value.toInt64
  ofScalar value := value.toInt64.toInt32

instance : Element Int64 where
  size := 8
  decode bytes := Int64.ofNat (LittleEndian.decode (bytes.take 8))
  encode value := LittleEndian.encode 8 value.toUInt64.toNat
  toScalar value := .int value
  ofScalar value := value.toInt64

instance : Element Binary32 where
  size := 4
  decode bytes := ⟨UInt32.ofNat (LittleEndian.decode (bytes.take 4))⟩
  encode value := LittleEndian.encode 4 value.bits.toNat
  toScalar value := .float value.widen
  ofScalar value := value.toBinary64.narrow

instance : Element Binary64 where
  size := 8
  decode bytes := ⟨UInt64.ofNat (LittleEndian.decode (bytes.take 8))⟩
  encode value := LittleEndian.encode 8 value.bits.toNat
  toScalar value := .float value
  ofScalar value := value.toBinary64

end Element

end SimpleBinary
