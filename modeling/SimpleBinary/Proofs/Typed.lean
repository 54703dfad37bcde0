import SimpleBinary.Proofs.Absence
import SimpleBinary.Proofs.Cells
import SimpleBinary.Proofs.Decoding
import SimpleBinary.Proofs.Independence

namespace SimpleBinary

open scoped Power

class ElementOf (α : Type) [Element α] (p : Primitive) : Prop extends FaithfulElement α where
  size_eq : p.size = Element.size α
  decode_eq (bytes : Bytes) : p.decode bytes = Element.toScalar (Element.decode bytes : α)

namespace ElementOf

variable {α : Type} [Element α]

theorem of_number [FaithfulElement α] {p : Primitive} (ofNumber : Nat → α)
    (hsize : p.size = Element.size α)
    (hdecode : ∀ bytes, Element.decode bytes =
      ofNumber (LittleEndian.decode (bytes.take (Element.size α))))
    (hscalar : ∀ n, n < 2 ^ p.width → Element.toScalar (ofNumber n) = p.ofRaw n) :
    ElementOf α p where
  size_eq := hsize
  decode_eq bytes := by
    rw [Primitive.decode, hdecode, ← hsize, hscalar _ (p.decode_take_lt bytes)]

theorem uint_ofNat {a : UInt64} {n : Nat} (ha : a.toNat = n) :
    Scalar.uint a = .uint (UInt64.ofNat n) := by
  rw [← ha, UInt64.ofNat_toNat]

theorem int_ofInt {w : Nat} (hw : 0 < w) (hw' : w ≤ 64) {a : Int64} {n : Nat}
    (ha : a.toInt = (n : Int).bmod (2 ^ w)) :
    Scalar.int a = .int (Int64.ofInt ((n : Int).bmod (2 ^ w))) :=
  congrArg Scalar.int
    (Int64.toInt_inj.mp (by rw [ha, (Primitive.toInt_ofInt_bmod hw hw' n).1]))

instance : ElementOf UInt8 .uint8 :=
  of_number UInt8.ofNat rfl (fun _ => rfl) fun _ hn =>
    uint_ofNat ((UInt8.toNat_toUInt64 _).trans (UInt8.toNat_ofNat_of_lt' hn))

instance : ElementOf UInt8 .char :=
  of_number UInt8.ofNat rfl (fun _ => rfl) fun _ hn =>
    uint_ofNat ((UInt8.toNat_toUInt64 _).trans (UInt8.toNat_ofNat_of_lt' hn))

instance : ElementOf UInt16 .uint16 :=
  of_number UInt16.ofNat rfl (fun _ => rfl) fun _ hn =>
    uint_ofNat ((UInt16.toNat_toUInt64 _).trans (UInt16.toNat_ofNat_of_lt' hn))

instance : ElementOf UInt32 .uint32 :=
  of_number UInt32.ofNat rfl (fun _ => rfl) fun _ hn =>
    uint_ofNat ((UInt32.toNat_toUInt64 _).trans (UInt32.toNat_ofNat_of_lt' hn))

instance : ElementOf UInt64 .uint64 :=
  of_number UInt64.ofNat rfl (fun _ => rfl) fun _ _ => rfl

instance : ElementOf Int8 .int8 :=
  of_number Int8.ofNat rfl (fun _ => rfl) fun _ _ =>
    int_ofInt (w := 8) (by decide) (by decide) ((Int8.toInt_toInt64 _).trans Int8.toInt_ofNat')

instance : ElementOf Int16 .int16 :=
  of_number Int16.ofNat rfl (fun _ => rfl) fun _ _ =>
    int_ofInt (w := 16) (by decide) (by decide) ((Int16.toInt_toInt64 _).trans Int16.toInt_ofNat')

instance : ElementOf Int32 .int32 :=
  of_number Int32.ofNat rfl (fun _ => rfl) fun _ _ =>
    int_ofInt (w := 32) (by decide) (by decide) ((Int32.toInt_toInt64 _).trans Int32.toInt_ofNat')

instance : ElementOf Int64 .int64 :=
  of_number Int64.ofNat rfl (fun _ => rfl) fun _ _ =>
    int_ofInt (by decide) (by decide) Int64.toInt_ofNat'

instance : ElementOf Binary32 .float :=
  of_number (⟨UInt32.ofNat ·⟩) rfl (fun _ => rfl) fun _ _ => rfl

instance : ElementOf Binary64 .double :=
  of_number (⟨UInt64.ofNat ·⟩) rfl (fun _ => rfl) fun _ _ => rfl

theorem encode_eq {p : Primitive} [ElementOf α p] (hf : p.isFloat = false) (value : α) :
    p.encode (Element.toScalar value) = Element.encode value := by
  have hlength : (Element.encode value).length = p.size :=
    (LawfulElement.length_encode value).trans (size_eq (α := α) (p := p)).symm
  have hdecode : p.decode (Element.encode value) = Element.toScalar value := by
    rw [decode_eq (α := α), FaithfulElement.decode_encode]
  rw [← hdecode, Primitive.encode_decode hf hlength]

theorem encode_decode {p : Primitive} [ElementOf α p] (hf : p.isFloat = false) {piece : Bytes}
    (hl : piece.length = p.size) : Element.encode (Element.decode piece : α) = piece := by
  rw [← encode_eq (p := p) hf, ← decode_eq (α := α) (p := p), Primitive.encode_decode hf hl]

theorem elementBytes_elements {p : Primitive} [ElementOf α p]
    (hpiece : ∀ piece : Bytes, piece.length = p.size →
      Element.encode (Element.decode piece : α) = piece)
    {content : Bytes} {count : Nat} (hl : content.length = p.size * count) :
    elementBytes (elements α content) = content := by
  have hcount : content.length / Element.size α = count := by
    rw [hl, ← size_eq (α := α) (p := p), Nat.mul_div_cancel_left _ p.size_pos]
  rw [elements, hcount, ← size_eq (α := α) (p := p)]
  clear hcount
  induction count generalizing content with
  | zero => exact (List.length_eq_zero_iff.mp hl).symm
  | succ count ih =>
    rw [Nat.mul_succ] at hl
    have hfront : (content.take p.size).length = p.size := by
      rw [List.length_take]
      omega
    have hback : (content.drop p.size).length = p.size * count := by
      rw [List.length_drop]
      omega
    rw [Bytes.pieces, List.map_cons, elementBytes, List.flatMap_cons, hpiece _ hfront]
    exact (congrArg _ (ih hback)).trans (List.take_append_drop _ _)

end ElementOf

theorem Window.le_of_readElement {α : Type} [Element α] {w : Window} {start : Nat} {value : α}
    (h : w.readElement α start = .ok value) : start + Element.size α ≤ w.limit := by
  apply Nat.le_of_not_lt
  intro hlt
  rw [readElement, read_of_lt hlt] at h
  cases h

def Value.ofElement {α : Type} [Element α] (value : α) : Value :=
  .scalar (Element.toScalar value)

namespace Binding

variable {b : Binding} {w : Window} {t : TypeDef} {α : Type} [Element α]

section

variable [ElementOf α t.primitive]

theorem readScalar_eq_readElement (start : Nat) :
    w.readScalar start t.primitive = (w.readElement α start).map Element.toScalar := by
  rw [Window.readScalar, Window.readElement, ← ElementOf.size_eq (α := α) (p := t.primitive)]
  cases w.read start t.primitive.size with
  | error e => rfl
  | ok bytes => exact congrArg Except.ok (ElementOf.decode_eq bytes)

variable (hk : b.field.kind = .type t)
include hk

section

variable (hp : b.field.presence ≠ .constant)
include hp

theorem value_eq_scalar_of_visible (hl : t.length = 1) (hv : b.visible = true) :
    b.value w = (b.scalar α w).map Value.ofElement := by
  have htype := scalarType_eq hk hl (ElementOf.size_eq (α := α))
  simp only [value, scalar, typeDef_eq hk, htype, constant?_of_stored hp, Action.ok_bind, if_pos hl,
    hv, if_true, readScalar_eq_readElement (α := α)]
  cases w.readElement α b.offset <;> rfl

theorem scalar_of_absent (hl : t.length = 1) (hv : b.visible = false) :
    b.scalar α w = .ok (Element.ofScalar t.null) := by
  have htype := scalarType_eq hk hl (ElementOf.size_eq (α := α))
  simp only [scalar, htype, constant?_of_stored hp, Action.ok_bind, hv, Bool.false_eq_true,
    if_false]
  rfl

omit [ElementOf α t.primitive] in
theorem value_of_absent (hv : b.visible = false) : b.value w = .ok t.absent := by
  rw [value_of_invisible hk hv, Field.constantOr_of_stored hp]

theorem value_eq_scalar (hl : t.length = 1)
    (hn : Element.toScalar (Element.ofScalar t.null : α) = t.null) :
    b.value w = (b.scalar α w).map Value.ofElement := by
  cases hv : b.visible with
  | true => exact value_eq_scalar_of_visible hk hp hl hv
  | false =>
    rw [scalar_of_absent hk hp hl hv, value_of_absent hk hp hv, TypeDef.absent, if_pos hl]
    exact congrArg (fun s => Except.ok (Value.scalar s)) hn.symm

end

theorem value_eq_scalar_of_constant (hl : t.length = 1) {s : Scalar}
    (hp : b.field.presence = .constant) (hc : b.field.constant = some (.scalar s))
    (hs : Element.toScalar (Element.ofScalar s : α) = s) :
    b.value w = (b.scalar α w).map Value.ofElement := by
  have htype := scalarType_eq hk hl (ElementOf.size_eq (α := α))
  simp only [value, scalar, typeDef_eq hk, htype, constant?_of_constant hp hc, Action.ok_bind]
  change Except.ok (Value.scalar _) = Except.ok (Value.scalar _)
  rw [hs]

theorem setScalar_eq_setValue (hl : t.length = 1) (hf : t.primitive.isFloat = false) (v : α) :
    b.setScalar v = b.setValue (.ofElement v) := by
  have htype := scalarType_eq hk hl (ElementOf.size_eq (α := α))
  have hedit : b.editValue t (.scalar (Element.toScalar v)) = .ok ⟨none, Element.encode v⟩ := by
    rw [editValue, if_neg (not_not.mpr hl), ElementOf.encode_eq hf]
  funext w
  rw [setScalar_eq, setValue_eq]
  simp only [editScalar, editOf, htype, typeDef_eq hk, Action.ok_bind, Value.ofElement, hedit]

theorem setArray_eq_setValue (hp : b.field.presence ≠ .constant) (values : List α) :
    b.setArray values = b.setValue (.array ⟨t.primitive, elementBytes values⟩) := by
  have htype := arrayType_eq hk (ElementOf.size_eq (α := α))
  have hlength : ScalarArray.length ⟨t.primitive, elementBytes values⟩ = values.length := by
    rw [ScalarArray.length, TypeDef.length_elementBytes,
      ← ElementOf.size_eq (α := α) (p := t.primitive)]
    exact Nat.mul_div_cancel_left _ t.primitive.size_pos
  funext w
  rw [setArray_eq, setValue_eq]
  simp only [editElements, editOf, htype, typeDef_eq hk, Action.ok_bind, editStored,
    constant?_of_stored hp, editValue, ne_eq, not_true_eq_false, if_false, hlength]

section

variable (hs : b.Stores)
include hs

theorem array_of_visible :
    b.array α w = (w.read b.offset t.encodedLength).map (elements α) := by
  have htype := arrayType_eq hk (ElementOf.size_eq (α := α))
  simp only [array, htype, constant?_of_stored hs.stored, Action.ok_bind, hs.visible, if_true]
  cases w.read b.offset t.encodedLength <;> rfl

theorem arrayElement_of_visible {index : Nat} (hi : index < t.length) :
    b.arrayElement α index w =
      w.readElement α (wordOf (b.offset + index * t.primitive.size)) := by
  have htype := arrayType_eq hk (ElementOf.size_eq (α := α))
  simp only [arrayElement, htype, checkIndex, if_pos hi, constant?_of_stored hs.stored,
    Action.ok_bind, hs.visible, if_true, ElementOf.size_eq (α := α) (p := t.primitive)]

theorem value_eq_array
    (hpiece : ∀ piece : Bytes, piece.length = t.primitive.size →
      Element.encode (Element.decode piece : α) = piece)
    (hl : t.length ≠ 1) (ht : t.isText = false) (hw : w.limit ≤ w.bytes.length) :
    b.value w =
      (b.array α w).map fun values => .array ⟨t.primitive, elementBytes values⟩ := by
  rw [array_of_visible hk hs]
  simp only [value, typeDef_eq hk, constant?_of_stored hs.stored, Action.ok_bind, if_neg hl,
    hs.visible, if_true, ht, Bool.false_eq_true, if_false]
  cases hread : w.read b.offset t.encodedLength with
  | error e => rfl
  | ok content =>
    obtain ⟨count, hcount⟩ := t.size_dvd_encodedLength
    have hlength : content.length = t.primitive.size * count := by
      rw [Window.length_of_read hw hread, hcount]
    have hwhole : elementBytes (elements α content) = content :=
      ElementOf.elementBytes_elements hpiece hlength
    have hrest : content.length % t.primitive.size = 0 := by rw [hlength, Nat.mul_mod_right]
    change Except.ok (Value.array (.ofBytes content t.primitive)) =
      Except.ok (Value.array ⟨t.primitive, elementBytes (elements α content)⟩)
    rw [ScalarArray.ofBytes, hrest, Nat.sub_zero, List.take_length, hwhole]

theorem arrayElement_of_array (hw : w.limit ≤ w.bytes.length) {values : List α}
    (h : b.array α w = .ok values) {index : Nat} {v : α} (hv : values[index]? = some v) :
    b.arrayElement α index w = .ok v := by
  have hsize := ElementOf.size_eq (α := α) (p := t.primitive)
  rw [array_of_visible hk hs] at h
  cases hread : w.read b.offset t.encodedLength with
  | error e =>
    rw [hread] at h
    cases h
  | ok content =>
    rw [hread] at h
    cases h
    have hlength : content.length = t.encodedLength := Window.length_of_read hw hread
    rw [elements, List.getElem?_map, Bytes.getElem?_pieces, ← hsize, hlength] at hv
    have hi : index < t.encodedLength / t.primitive.size := by
      by_contra hi
      rw [if_neg hi] at hv
      cases hv
    rw [if_pos hi] at hv
    cases hv
    have hfits : index * t.primitive.size + t.primitive.size ≤ t.encodedLength := by
      rw [← Nat.succ_mul, ← t.encodedLength_div_mul]
      exact Nat.mul_le_mul_right _ hi
    have hle := (Window.read_eq_ok.mp hread).1
    have hindex : index < t.length := Nat.lt_of_lt_of_le hi t.encodedLength_div_le
    rw [arrayElement_of_visible hk hs hindex, Window.wordOf_of_le (w := w) (by omega),
      Window.readElement, ← hsize, Window.read_part hread hfits]
    rfl

end

end

theorem value_eq_text (hk : b.field.kind = .type t) (ht : t.isText)
    (hc : ∀ s, b.constant? ≠ .ok (some (.scalar s))) : b.value w = (b.text w).map Value.text := by
  have hprimitive := TypeDef.primitive_of_isText ht
  simp only [value, text, typeDef_eq hk, textCapacity_eq hk hprimitive, Action.ok_bind]
  rcases hconstant : b.constant? with e | _ | s | characters
  · rfl
  · simp only [Action.ok_bind, if_neg (TypeDef.length_ne_one_of_isText ht), ht, if_true,
      TypeDef.encodedLength_of_char hprimitive]
    cases b.visible with
    | true => cases w.read b.offset t.length <;> rfl
    | false => rfl
  · exact absurd hconstant (hc s)
  · rfl

theorem setText_eq_setValue (hk : b.field.kind = .type t) (hc : t.primitive = .char)
    (characters : Bytes) : b.setText characters = b.setValue (.text characters) := by
  funext w
  rw [setText_eq, setValue_eq]
  simp only [editCharacters, editOf, textCapacity_eq hk hc, typeDef_eq hk, Action.ok_bind, hc,
    editValue, ne_eq, not_true_eq_false, if_false]

end Binding

end SimpleBinary
