import Mathlib.Data.List.TakeWhile
import SimpleBinary.Field.Choices
import SimpleBinary.Field.Enumeration
import SimpleBinary.Proofs.Bits
import SimpleBinary.Proofs.Content

namespace SimpleBinary

theorem Bytes.padded_untilZero (bytes : Bytes) (size : Nat) :
    (bytes.padded size).untilZero = bytes.untilZero := by
  have htail : (List.replicate (size - bytes.length) (0 : UInt8)).takeWhile (· != 0) = [] := by
    cases size - bytes.length <;> simp [List.replicate_succ]
  unfold untilZero padded
  generalize List.replicate (size - bytes.length) (0 : UInt8) = tail at htail
  induction bytes with
  | nil => exact htail
  | cons byte rest ih =>
    rw [List.cons_append, List.takeWhile_cons, List.takeWhile_cons, ih]

theorem Bytes.untilZero_padded {bytes : Bytes} (h : 0 ∉ bytes) (size : Nat) :
    (bytes.padded size).untilZero = bytes := by
  rw [padded_untilZero, untilZero, List.takeWhile_eq_self_iff]
  intro byte hb
  exact bne_iff_ne.mpr fun h0 => h (h0 ▸ hb)

theorem BitSet.ofBits_bits (set : BitSet) : ofBits set.bits set.encoding = set := by
  obtain ⟨encoding, bits, hbits⟩ := set
  simp only [ofBits, Nat.mod_eq_of_lt hbits]

def TypeDef.encode (t : TypeDef) : Value → Bytes
  | .scalar s => t.primitive.encode s
  | .text characters => characters.padded t.length
  | .array a => a.bytes

namespace TypeDef

variable {t : TypeDef} {v : Value}

theorem primitive_of_isText (h : t.isText) : t.primitive = .char :=
  beq_iff_eq.mp (Bool.and_eq_true_iff.mp h).1

theorem length_ne_one_of_isText (h : t.isText) : t.length ≠ 1 := by
  have := of_decide_eq_true (Bool.and_eq_true_iff.mp h).2
  omega

theorem extent_of_isText (h : t.isText) : t.extent = t.length := by
  rw [extent, primitive_of_isText h, Primitive.size, Nat.one_mul]

theorem length_encode (h : t.admits v) : (t.encode v).length = t.extent := by
  cases v with
  | scalar s => rw [encode, Primitive.length_encode, extent, h.1, Nat.mul_one]
  | text characters => rw [encode, Bytes.length_padded h.2.2, extent_of_isText h.1]
  | array a => exact h.2.2.2

theorem length_array {a : ScalarArray} (h : t.admits (.array a)) : a.length = t.length := by
  obtain ⟨-, -, hp, hb⟩ := h
  rw [ScalarArray.length, hb, hp, extent, Nat.mul_div_cancel_left _ t.primitive.size_pos]

theorem ofBytes_array {a : ScalarArray} (h : t.admits (.array a)) :
    ScalarArray.ofBytes a.bytes t.primitive = a := by
  obtain ⟨primitive, bytes⟩ := a
  obtain ⟨-, -, rfl, hb⟩ := h
  have hrest : bytes.length % t.primitive.size = 0 := by
    rw [hb, extent, Nat.mul_mod_right]
  rw [ScalarArray.ofBytes, hrest, Nat.sub_zero, List.take_length]

end TypeDef

namespace Binding

variable {b : Binding} {w : Window}

theorem constant?_of_stored (hp : b.field.presence ≠ .constant) : b.constant? = .ok none :=
  if_neg hp

theorem constant?_of_constant (hp : b.field.presence = .constant) {c : Constant}
    (hc : b.field.constant = some c) : b.constant? = .ok (some c) := by
  rw [constant?, if_pos hp, hc]

theorem requireVisible_of_visible (hv : b.visible = true) : b.requireVisible w = (.ok ⟨⟩, w) := by
  simp only [requireVisible, Action.bind_apply, Action.get_apply, hv, Bool.not_true,
    Bool.false_eq_true, if_false, Action.pure_apply]

section

variable {t : TypeDef} {v : Value}

theorem typeDef_eq (hk : b.field.kind = .type t) : b.typeDef = .ok t := by
  rw [typeDef, hk]

theorem writeText_of_le {capacity : Nat} {characters : Bytes} (hc : characters.length ≤ capacity)
    (hw : b.offset + capacity ≤ w.limit) :
    b.writeText capacity characters w =
      (.ok ⟨⟩, w.written b.offset (characters.padded capacity)) := by
  have hwrite : Window.write b.offset (characters.padded capacity) w = _ :=
    Window.write_of_le (by rwa [Bytes.length_padded hc])
  simp only [writeText, if_neg (Nat.not_lt.mpr hc), Action.bind_apply, Action.get_apply,
    Action.discard_apply, Action.lift_apply, Window.check_of_le hw, Except.map, hwrite]

theorem setValue_of_admits (hk : b.field.kind = .type t) (hp : b.field.presence ≠ .constant)
    (hv : b.visible = true) (ha : t.admits v) (hw : b.offset + t.extent ≤ w.limit) :
    b.setValue v w = (.ok ⟨⟩, w.written b.offset (t.encode v)) := by
  have hlen := TypeDef.length_encode ha
  have hwrite : Window.write b.offset (t.encode v) w = _ := Window.write_of_le (by rwa [hlen])
  simp only [setValue, Action.bind_apply, Action.lift_apply, typeDef_eq hk,
    constant?_of_stored hp, requireVisible_of_visible hv]
  cases v with
  | scalar s =>
    simp only [ne_eq, ha.1, not_true_eq_false, if_false]
    exact hwrite
  | text characters =>
    simp only [ne_eq, TypeDef.primitive_of_isText ha.1, not_true_eq_false, if_false]
    rw [TypeDef.extent_of_isText ha.1] at hw
    exact writeText_of_le ha.2.2 hw
  | array a =>
    simp only [ne_eq, ha.2.2.1, TypeDef.length_array ha, not_true_eq_false, if_false]
    exact hwrite

theorem value_of_read (hk : b.field.kind = .type t) (hp : b.field.presence ≠ .constant)
    (hv : b.visible = true) (ha : t.admits v)
    (hr : w.read b.offset t.extent = .ok (t.encode v)) : b.value w = .ok v := by
  obtain ⟨hle, -⟩ := Window.read_eq_ok.mp hr
  rw [← TypeDef.encodedLength_of_le (Nat.le_of_add_left_le hle)] at hr
  simp only [value, typeDef_eq hk, constant?_of_stored hp, Action.ok_bind, hv, if_true]
  cases v with
  | scalar s =>
    obtain ⟨hone, hs⟩ := ha
    have hread : w.read b.offset t.primitive.size = .ok (t.primitive.encode s) := by
      rwa [TypeDef.encodedLength_of_le (Nat.le_of_add_left_le hle), TypeDef.extent, hone,
        Nat.mul_one] at hr
    rw [if_pos hone, Window.readScalar_of_read hread, Primitive.decode_encode hs]
    rfl
  | text characters =>
    rw [if_neg (TypeDef.length_ne_one_of_isText ha.1), hr, Action.ok_bind, if_pos ha.1,
      TypeDef.encode, Bytes.untilZero_padded ha.2.1]
    rfl
  | array a =>
    rw [if_neg ha.1, hr, Action.ok_bind, if_neg (by rw [ha.2.1]; decide), TypeDef.encode,
      TypeDef.ofBytes_array ha]
    rfl

theorem value_of_constant (hk : b.field.kind = .type t) (hp : b.field.presence = .constant)
    {c : Constant} (hc : b.field.constant = some c) : b.value w = .ok c.toValue := by
  simp only [value, typeDef_eq hk, constant?_of_constant hp hc, Action.ok_bind]
  rfl

end

section

variable {e : EnumDef} {n : UInt64}

theorem enumDef_eq (hk : b.field.kind = .enum e) : b.enumDef = .ok e := by
  rw [enumDef, hk]

theorem constantRaw?_of_stored (hp : b.field.presence ≠ .constant) : b.constantRaw? = .ok none := by
  simp only [constantRaw?, constant?_of_stored hp, Action.ok_bind]
  rfl

theorem constantRaw?_of_constant (hp : b.field.presence = .constant) {c : Constant}
    (hc : b.field.constant = some c) (hn : c.raw? = some n) : b.constantRaw? = .ok (some n) := by
  simp only [constantRaw?, constant?_of_constant hp hc, Action.ok_bind]
  cases c with
  | scalar value =>
    cases hn
    rfl
  | text characters =>
    simp only [Constant.raw?] at hn
    split at hn
    · next byte hbyte =>
      cases hn
      simp only [hbyte]
      rfl
    · cases hn

theorem constantRaw?_of_no_raw (hp : b.field.presence = .constant) {c : Constant}
    (hc : b.field.constant = some c) (hn : c.raw? = none) :
    b.constantRaw? = .error b.kindMismatch := by
  simp only [constantRaw?, constant?_of_constant hp hc, Action.ok_bind]
  cases c with
  | scalar value => cases hn
  | text characters =>
    simp only [Constant.raw?] at hn
    rcases hbytes : utf8 characters with _ | ⟨byte, _ | ⟨other, rest⟩⟩
    · simp only [hbytes]
      rfl
    · rw [hbytes] at hn
      cases hn
    · simp only [hbytes]
      rfl

theorem setEnumRaw_eq_write (hk : b.field.kind = .enum e) (hp : b.field.presence ≠ .constant)
    (hv : b.visible = true) :
    b.setEnumRaw n w = Window.write b.offset (e.encoding.encode (.uint n)) w := by
  simp only [setEnumRaw, Action.bind_apply, Action.lift_apply, enumDef_eq hk,
    constantRaw?_of_stored hp, requireVisible_of_visible hv]
  rfl

theorem setEnumRaw_of_stored (hk : b.field.kind = .enum e) (hp : b.field.presence ≠ .constant)
    (hv : b.visible = true) (hw : b.offset + e.encoding.size ≤ w.limit) :
    b.setEnumRaw n w = (.ok ⟨⟩, w.written b.offset (e.encoding.encode (.uint n))) := by
  rw [setEnumRaw_eq_write hk hp hv, Window.write_of_le (by rwa [Primitive.length_encode])]

theorem enumRaw_of_read (hk : b.field.kind = .enum e) (hp : b.field.presence ≠ .constant)
    (hv : b.visible = true) (hu : e.encoding.isUnsigned) (hn : n.toNat ≤ e.encoding.rawMax)
    (hr : w.read b.offset e.encoding.size = .ok (e.encoding.encode (.uint n))) :
    b.enumRaw w = .ok n := by
  have hdecode : e.encoding.decode (e.encoding.encode (.uint n)) = .uint n :=
    Primitive.decode_encode ⟨hu, hn⟩
  simp only [enumRaw, enumDef_eq hk, constantRaw?_of_stored hp, Action.ok_bind, hv, if_true,
    Window.readScalar_of_read hr, hdecode]
  rfl

theorem enumRaw_of_constant (hk : b.field.kind = .enum e) (hp : b.field.presence = .constant)
    {c : Constant} (hc : b.field.constant = some c) (hn : c.raw? = some n) :
    b.enumRaw w = .ok n := by
  simp only [enumRaw, enumDef_eq hk, constantRaw?_of_constant hp hc hn, Action.ok_bind]
  rfl

theorem enumName?_of_enumRaw (hk : b.field.kind = .enum e) (hn : b.enumRaw w = .ok n) :
    b.enumName? w = .ok (e.nameOf? n) := by
  simp only [enumName?, enumDef_eq hk, hn, Action.ok_bind]
  rfl

end

section

variable {s : SetDef} {set : BitSet}

theorem setDef_eq (hk : b.field.kind = .set s) : b.setDef = .ok s := by
  rw [setDef, hk]

theorem setBits_eq_write (hk : b.field.kind = .set s) (hp : b.field.presence ≠ .constant)
    (hv : b.visible = true) :
    b.setBits set w = Window.write b.offset (BitSet.ofBits set.bits s.encoding).toBytes w := by
  simp only [setBits, Action.bind_apply, Action.lift_apply, setDef_eq hk, constant?_of_stored hp,
    requireVisible_of_visible hv]

theorem setBits_of_stored (hk : b.field.kind = .set s) (hp : b.field.presence ≠ .constant)
    (hv : b.visible = true) (hw : b.offset + s.encoding.size ≤ w.limit) :
    b.setBits set w =
      (.ok ⟨⟩, w.written b.offset (BitSet.ofBits set.bits s.encoding).toBytes) := by
  rw [setBits_eq_write hk hp hv,
    Window.write_of_le (by rwa [BitSet.toBytes, Primitive.length_encode])]

theorem bits_of_read (hk : b.field.kind = .set s) (hp : b.field.presence ≠ .constant)
    (hv : b.visible = true) (he : set.encoding = s.encoding) (hu : s.encoding.isUnsigned)
    (hr : w.read b.offset s.encoding.size = .ok set.toBytes) : b.bits w = .ok set := by
  simp only [bits, setDef_eq hk, constant?_of_stored hp, Action.ok_bind, hv, if_true, hr]
  rw [← he] at hu ⊢
  rw [BitSet.ofBytes_toBytes (Primitive.isFloat_of_isUnsigned hu)]
  rfl

theorem bits_of_constant (hk : b.field.kind = .set s) (hp : b.field.presence = .constant)
    {c : Constant} (hc : b.field.constant = some c) (hb : c.bits? s.encoding = some set) :
    b.bits w = .ok set := by
  simp only [bits, setDef_eq hk, constant?_of_constant hp hc, Action.ok_bind]
  cases c with
  | scalar value =>
    cases hb
    rfl
  | text characters => cases hb

theorem choices_of_bits (hk : b.field.kind = .set s) (hb : b.bits w = .ok set) :
    b.choices w = .ok ((s.choices.filter fun choice => choice.since ≤ w.version).map
      fun choice => (choice.name, set.contains choice.bit)) := by
  simp only [choices, setDef_eq hk, hb, Action.ok_bind]
  rfl

end

end Binding

end SimpleBinary
