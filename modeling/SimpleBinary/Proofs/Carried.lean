import SimpleBinary.Proofs.Typed

namespace SimpleBinary

open scoped Power

def Scalar.isNaN : Scalar → Bool
  | float x => x.isNaN
  | _ => false

/-- An element type that holds exactly what a primitive stores: it writes back the bytes that it was
read from, it casts a value to what is stored of it, and a number of its own is kept by the way
through 64 bits. -/
class ExactElementOf (α : Type) [Element α] (p : Primitive) : Prop extends ElementOf α p where
  encode_decode (bytes : Bytes) (h : bytes.length = p.size) :
    Element.encode (Element.decode bytes : α) = bytes
  encode_ofScalar (s : Scalar) : Element.encode (Element.ofScalar s : α) = p.encode s
  ofScalar_toScalar (v : α) (h : (Element.toScalar v).isNaN = false) :
    Element.ofScalar (Element.toScalar v) = v

namespace ExactElementOf

variable {α : Type} [Element α] {p : Primitive}

theorem of_number [ElementOf α p] (number : α → Nat) (ofNumber : Nat → α)
    (hencode : ∀ v, Element.encode v = LittleEndian.encode (Element.size α) (number v))
    (hdecode : ∀ bytes, Element.decode bytes =
      ofNumber (LittleEndian.decode (bytes.take (Element.size α))))
    (hnumber : ∀ n, n < 2 ^ p.width → number (ofNumber n) = n)
    (hcast : ∀ s, number (Element.ofScalar s) = p.toRaw s % 2 ^ p.width)
    (hback : ∀ v : α, (Element.toScalar v).isNaN = false →
      Element.ofScalar (Element.toScalar v) = v) : ExactElementOf α p where
  encode_decode bytes h := by
    have hsize := ElementOf.size_eq (α := α) (p := p)
    have hlt : LittleEndian.decode bytes < 2 ^ p.width := by
      rw [← Primitive.pow_size, ← h]
      exact LittleEndian.decode_lt bytes
    rw [hencode, hdecode, ← hsize, List.take_of_length_le h.le, hnumber _ hlt, ← h,
      LittleEndian.encode_decode]
  encode_ofScalar s := by
    rw [hencode, hcast, ← ElementOf.size_eq (α := α) (p := p), ← Primitive.pow_size,
      LittleEndian.encode_mod, Primitive.encode]
  ofScalar_toScalar := hback

instance : ExactElementOf UInt8 .uint8 :=
  of_number UInt8.toNat UInt8.ofNat (fun _ => rfl) (fun _ => rfl)
    (fun _ hn => UInt8.toNat_ofNat_of_lt' hn) (fun _ => UInt64.toNat_toUInt8 _)
    fun _ _ => UInt8.toUInt8_toUInt64 _

instance : ExactElementOf UInt8 .char :=
  of_number UInt8.toNat UInt8.ofNat (fun _ => rfl) (fun _ => rfl)
    (fun _ hn => UInt8.toNat_ofNat_of_lt' hn) (fun _ => UInt64.toNat_toUInt8 _)
    fun _ _ => UInt8.toUInt8_toUInt64 _

instance : ExactElementOf UInt16 .uint16 :=
  of_number UInt16.toNat UInt16.ofNat (fun _ => rfl) (fun _ => rfl)
    (fun _ hn => UInt16.toNat_ofNat_of_lt' hn) (fun _ => UInt64.toNat_toUInt16 _)
    fun _ _ => UInt16.toUInt16_toUInt64 _

instance : ExactElementOf UInt32 .uint32 :=
  of_number UInt32.toNat UInt32.ofNat (fun _ => rfl) (fun _ => rfl)
    (fun _ hn => UInt32.toNat_ofNat_of_lt' hn) (fun _ => UInt64.toNat_toUInt32 _)
    fun _ _ => UInt32.toUInt32_toUInt64 _

instance : ExactElementOf UInt64 .uint64 :=
  of_number UInt64.toNat UInt64.ofNat (fun _ => rfl) (fun _ => rfl)
    (fun _ hn => UInt64.toNat_ofNat_of_lt' hn)
    (fun s => (Nat.mod_eq_of_lt s.toUInt64.toNat_lt).symm) fun _ _ => rfl

theorem toNat_signExtend (x : BitVec 64) {w : Nat} (hw : w ≤ 64) :
    (x.signExtend w).toNat = x.toNat % 2 ^ w := by
  rw [BitVec.signExtend_eq_setWidth_of_le _ hw, BitVec.toNat_setWidth]

instance : ExactElementOf Int8 .int8 :=
  of_number (·.toUInt8.toNat) Int8.ofNat (fun _ => rfl) (fun _ => rfl)
    (fun _ hn => UInt8.toNat_ofNat_of_lt' hn)
    (fun s => toNat_signExtend s.toInt64.toBitVec (by decide)) fun _ _ => Int8.toInt8_toInt64 _

instance : ExactElementOf Int16 .int16 :=
  of_number (·.toUInt16.toNat) Int16.ofNat (fun _ => rfl) (fun _ => rfl)
    (fun _ hn => UInt16.toNat_ofNat_of_lt' hn)
    (fun s => toNat_signExtend s.toInt64.toBitVec (by decide)) fun _ _ => Int16.toInt16_toInt64 _

instance : ExactElementOf Int32 .int32 :=
  of_number (·.toUInt32.toNat) Int32.ofNat (fun _ => rfl) (fun _ => rfl)
    (fun _ hn => UInt32.toNat_ofNat_of_lt' hn)
    (fun s => toNat_signExtend s.toInt64.toBitVec (by decide)) fun _ _ => Int32.toInt32_toInt64 _

instance : ExactElementOf Int64 .int64 :=
  of_number (·.toUInt64.toNat) Int64.ofNat (fun _ => rfl) (fun _ => rfl)
    (fun _ hn => UInt64.toNat_ofNat_of_lt' hn)
    (fun s => (Nat.mod_eq_of_lt s.toInt64.toUInt64.toNat_lt).symm) fun _ _ => rfl

instance : ExactElementOf Binary32 .float :=
  of_number (·.bits.toNat) (⟨UInt32.ofNat ·⟩) (fun _ => rfl) (fun _ => rfl)
    (fun _ hn => UInt32.toNat_ofNat_of_lt' hn)
    (fun s => (Nat.mod_eq_of_lt s.toBinary64.narrow.bits.toNat_lt).symm)
    fun _ h => Binary32.narrow_widen h

instance : ExactElementOf Binary64 .double :=
  of_number (·.bits.toNat) (⟨UInt64.ofNat ·⟩) (fun _ => rfl) (fun _ => rfl)
    (fun _ hn => UInt64.toNat_ofNat_of_lt' hn)
    (fun s => (Nat.mod_eq_of_lt s.toBinary64.bits.toNat_lt).symm) fun _ _ => rfl

section

variable [ExactElementOf α p]

theorem toScalar_ofScalar (s : Scalar) :
    Element.toScalar (Element.ofScalar s : α) = p.decode (p.encode s) := by
  rw [← encode_ofScalar (α := α), ElementOf.decode_eq (α := α), FaithfulElement.decode_encode]

theorem decode_of_encode (v : α) : p.decode (Element.encode v) = Element.toScalar v := by
  rw [ElementOf.decode_eq (α := α), FaithfulElement.decode_encode]

theorem toScalar_ofScalar_toScalar (p : Primitive) [ExactElementOf α p] (v : α) :
    Element.toScalar (Element.ofScalar (Element.toScalar v) : α) = Element.toScalar v := by
  rw [toScalar_ofScalar (p := p), ← decode_of_encode (p := p),
    Primitive.decode_encode (p.represents_decode _)]

end

end ExactElementOf

namespace Primitive

def Native : Primitive → Type
  | char => UInt8
  | int8 => Int8
  | int16 => Int16
  | int32 => Int32
  | int64 => Int64
  | uint8 => UInt8
  | uint16 => UInt16
  | uint32 => UInt32
  | uint64 => UInt64
  | float => Binary32
  | double => Binary64

instance (p : Primitive) : Element p.Native :=
  match p with
  | char => inferInstanceAs (Element UInt8)
  | int8 => inferInstanceAs (Element Int8)
  | int16 => inferInstanceAs (Element Int16)
  | int32 => inferInstanceAs (Element Int32)
  | int64 => inferInstanceAs (Element Int64)
  | uint8 => inferInstanceAs (Element UInt8)
  | uint16 => inferInstanceAs (Element UInt16)
  | uint32 => inferInstanceAs (Element UInt32)
  | uint64 => inferInstanceAs (Element UInt64)
  | float => inferInstanceAs (Element Binary32)
  | double => inferInstanceAs (Element Binary64)

instance (p : Primitive) : ExactElementOf p.Native p :=
  match p with
  | char => inferInstanceAs (ExactElementOf UInt8 .char)
  | int8 => inferInstanceAs (ExactElementOf Int8 .int8)
  | int16 => inferInstanceAs (ExactElementOf Int16 .int16)
  | int32 => inferInstanceAs (ExactElementOf Int32 .int32)
  | int64 => inferInstanceAs (ExactElementOf Int64 .int64)
  | uint8 => inferInstanceAs (ExactElementOf UInt8 .uint8)
  | uint16 => inferInstanceAs (ExactElementOf UInt16 .uint16)
  | uint32 => inferInstanceAs (ExactElementOf UInt32 .uint32)
  | uint64 => inferInstanceAs (ExactElementOf UInt64 .uint64)
  | float => inferInstanceAs (ExactElementOf Binary32 .float)
  | double => inferInstanceAs (ExactElementOf Binary64 .double)

def Carries (p : Primitive) (s : Scalar) : Prop :=
  p.equal (p.decode (p.encode s)) s = true

instance (p : Primitive) (s : Scalar) : Decidable (p.Carries s) :=
  inferInstanceAs (Decidable (_ = true))

theorem carries_of_represents {p : Primitive} {s : Scalar} (h : p.Represents s) : p.Carries s := by
  rw [Carries, decode_encode h]
  exact p.equal_self s

theorem Carries.equal_cast {p : Primitive} {s : Scalar} (h : p.Carries s) {α : Type} [Element α]
    [ExactElementOf α p] (a : Scalar) :
    p.equal a s = p.equal a (Element.toScalar (Element.ofScalar s : α)) := by
  rw [ExactElementOf.toScalar_ofScalar (p := p)]
  exact (equal_congr h a).symm

end Primitive

namespace Value

def Same (p : Primitive) : Value → Value → Prop
  | scalar a, scalar b => p.equal a b = true
  | text a, text b => a = b
  | array a, array b => List.Forall₂ (fun x y => p.equal x y = true) a.toList b.toList
  | _, _ => False

theorem same_self (p : Primitive) (v : Value) : v.Same p v := by
  cases v with
  | scalar s => exact p.equal_self s
  | text characters => rfl
  | array a => exact List.forall₂_same.mpr fun s _ => p.equal_self s

end Value

end SimpleBinary
