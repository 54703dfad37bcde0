import Mathlib.Data.List.TakeWhile
import SimpleBinary.Proofs.Independence
import SimpleBinary.Proofs.JsonContent
import SimpleBinary.Proofs.Keeping

namespace SimpleBinary

theorem Bytes.notMem_untilZero (bytes : Bytes) : 0 ∉ bytes.untilZero := by
  intro h
  have hzero := List.mem_takeWhile_imp h
  simp at hzero

theorem Bytes.length_untilZero_le (bytes : Bytes) : bytes.untilZero.length ≤ bytes.length :=
  (List.takeWhile_prefix _).length_le

namespace TypeDef

variable {t : TypeDef} {content : Bytes}

theorem admits_valueOf (hl : content.length = t.extent) : t.admits (t.valueOf content) := by
  unfold valueOf
  split
  next hone => exact ⟨hone, Primitive.represents_decode _ _⟩
  next hone =>
    split
    next htext =>
      refine ⟨htext, Bytes.notMem_untilZero _, ?_⟩
      rw [← extent_of_isText htext, ← hl]
      exact Bytes.length_untilZero_le _
    next htext =>
      refine ⟨hone, eq_false_of_ne_true htext, rfl, ?_⟩
      have hrest : content.length % t.primitive.size = 0 := by
        rw [hl, extent, Nat.mul_mod_right]
      rw [ScalarArray.ofBytes, hrest, Nat.sub_zero, List.take_length, hl]

theorem length_of_nullable (hn : t.nullable) :
    (t.length = 1 ∧ t.primitive.decode (t.primitive.encode t.null) = t.null) ∨
      (t.isText ∧ t.null = .uint 0) := by
  simpa only [nullable, Bool.or_eq_true, Bool.and_eq_true, beq_iff_eq] using hn

theorem one_le_length (hn : t.nullable) : 1 ≤ t.length := by
  rcases length_of_nullable hn with ⟨hone, -⟩ | ⟨htext, -⟩
  · omega
  · have := of_decide_eq_true (Bool.and_eq_true_iff.mp htext).2
    omega

theorem isAbsent_valueOf (hn : t.nullable) (hl : content.length = t.extent) :
    t.isAbsent (t.valueOf content) = t.primitive.equal (t.primitive.decode content) t.null := by
  rcases length_of_nullable hn with ⟨hone, -⟩ | ⟨htext, hnull⟩
  · rw [valueOf, if_pos hone, isAbsent]
  · have hlength := one_le_length hn
    rw [valueOf, if_neg (length_ne_one_of_isText htext), if_pos htext, isAbsent, hnull,
      primitive_of_isText htext]
    rw [extent_of_isText htext] at hl
    -- A text is absent if it is empty, and its first byte decides that.
    cases content with
    | nil =>
      rw [List.length_nil] at hl
      omega
    | cons byte rest =>
      have hdecode : Primitive.char.decode (byte :: rest) = .uint (UInt64.ofNat byte.toNat) := by
        simp [Primitive.decode, Primitive.size, Primitive.ofRaw, LittleEndian.decode]
      rw [hdecode]
      by_cases hbyte : byte = 0
      · subst hbyte
        rfl
      · have hword : UInt64.ofNat byte.toNat ≠ 0 := by
          intro hzero
          apply hbyte
          have hlt : byte.toNat < 2 ^ 64 := Nat.lt_trans byte.toNat_lt (by decide)
          have hnat := congrArg UInt64.toNat hzero
          rw [UInt64.toNat_ofNat_of_lt' hlt] at hnat
          exact UInt8.toNat_inj.mp hnat
        have hequal : Primitive.char.equal (.uint (UInt64.ofNat byte.toNat)) (.uint 0) = false :=
          beq_eq_false_iff_ne.mpr hword
        have htake : Bytes.untilZero (byte :: rest) = byte :: Bytes.untilZero rest :=
          List.takeWhile_cons_of_pos (bne_iff_ne.mpr hbyte)
        rw [hequal, htake, List.isEmpty_cons]

theorem admits_absent (hn : t.nullable) :
    t.admits t.absent ∧ t.isAbsent t.absent := by
  rcases length_of_nullable hn with ⟨hone, hnull⟩ | ⟨htext, -⟩
  · rw [absent, if_pos hone]
    refine ⟨⟨hone, ?_⟩, ?_⟩
    · rw [← hnull]
      exact Primitive.represents_decode _ _
    · exact Primitive.equal_self _ _
  · rw [absent, if_neg (length_ne_one_of_isText htext), if_pos htext]
    exact ⟨⟨htext, List.not_mem_nil, Nat.zero_le _⟩, rfl⟩

end TypeDef

namespace Binding

variable {b : Binding} {w : Window} {J : Type} [JsonValues J]

theorem read_of_value {t : TypeDef} {v : Value} (hs : b.Stores) (hk : b.field.kind = .type t)
    (hword : t.extent < UInt64.size) (h : b.value w = .ok v) :
    ∃ content, w.read b.offset b.field.extent = .ok content ∧ t.valueOf content = v := by
  cases hread : w.read b.offset b.field.extent with
  | ok content =>
    rw [value_of_cell hs hread hk] at h
    cases h
    exact ⟨content, rfl, rfl⟩
  | error e =>
    rw [Field.extent_type hk hs.stored] at hread
    simp only [value, typeDef_eq hk, constant?_of_stored hs.stored, Action.ok_bind, hs.visible,
      if_true] at h
    split at h
    next hone =>
      rw [TypeDef.extent, hone, Nat.mul_one] at hread
      rw [Window.readScalar, hread] at h
      cases h
    next =>
      rw [TypeDef.encodedLength, wordOf_of_lt hword, hread] at h
      cases h

theorem read_of_enumRaw {e : EnumDef} {n : UInt64} (hs : b.Stores) (hk : b.field.kind = .enum e)
    (h : b.enumRaw w = .ok n) :
    ∃ content, w.read b.offset b.field.extent = .ok content ∧
      (e.encoding.decode content).toUInt64 = n := by
  cases hread : w.read b.offset b.field.extent with
  | ok content =>
    rw [enumRaw_of_cell hs hread hk] at h
    cases h
    exact ⟨content, rfl, rfl⟩
  | error reason =>
    rw [Field.extent_enum hk hs.stored] at hread
    simp only [enumRaw, enumDef_eq hk, constantRaw?_of_stored hs.stored, Action.ok_bind,
      hs.visible, if_true, Window.readScalar, hread] at h
    cases h

theorem read_of_bits {s : SetDef} {set : BitSet} (hs : b.Stores) (hk : b.field.kind = .set s)
    (h : b.bits w = .ok set) :
    ∃ content, w.read b.offset b.field.extent = .ok content ∧
      BitSet.ofBytes content s.encoding = set := by
  cases hread : w.read b.offset b.field.extent with
  | ok content =>
    rw [bits_of_cell hs hread hk] at h
    cases h
    exact ⟨content, rfl, rfl⟩
  | error reason =>
    rw [Field.extent_set hk hs.stored] at hread
    simp only [bits, setDef_eq hk, constant?_of_stored hs.stored, Action.ok_bind,
      hs.visible, if_true, hread] at h
    cases h

theorem present_of_mandatory (hv : b.visible = true) (hs : b.field.since ≤ w.version)
    (hp : b.field.presence ≠ .optional) : b.present w = .ok true := by
  rw [present, if_pos hv, Field.presentAt_eq, if_neg (UInt16.not_lt.mpr hs), if_pos hp]

theorem visible_of_present (h : b.present w = .ok true) : b.visible = true := by
  cases hv : b.visible with
  | true => rfl
  | false =>
    rw [present_of_invisible hv] at h
    cases h

theorem exportType_of_present (h : b.present w = .ok true) {v : Value} (hv : b.value w = .ok v) :
    b.exportType w = .ok (v.toJson : J) := by
  rw [exportType, h, Action.ok_bind, if_pos rfl, hv]
  rfl

theorem exportType_of_absent (h : b.present w = .ok false) :
    b.exportType w = .ok (JsonValues.null : J) := by
  rw [exportType, h]
  rfl

theorem exportEnum_of_present {e : EnumDef} {n : UInt64} (h : b.present w = .ok true)
    (hk : b.field.kind = .enum e) (hn : b.enumRaw w = .ok n) :
    b.exportEnum w = .ok (e.jsonOf n : J) := by
  rw [exportEnum, h, Action.ok_bind, if_pos rfl, enumName?_of_enumRaw hk hn, Action.ok_bind,
    EnumDef.jsonOf]
  cases e.nameOf? n with
  | some name => rfl
  | none =>
    dsimp only
    rw [hn]
    rfl

theorem exportEnum_of_absent (h : b.present w = .ok false) :
    b.exportEnum w = .ok (JsonValues.null : J) := by
  rw [exportEnum, h]
  rfl

theorem present_of_value {t : TypeDef} (hs : b.Stores) (hk : b.field.kind = .type t)
    (hword : t.extent < UInt64.size) (hsince : b.field.since ≤ w.version)
    (hn : b.field.presence = .optional → t.nullable) (hw : w.limit ≤ w.bytes.length) {v : Value}
    (h : b.value w = .ok v) :
    b.present w = .ok (!decide (b.field.presence = .optional ∧ t.isAbsent v)) := by
  obtain ⟨content, hread, rfl⟩ := read_of_value hs hk hword h
  have hlength : content.length = t.extent :=
    (Window.length_of_read hw hread).trans (Field.extent_type hk hs.stored)
  by_cases hp : b.field.presence = .optional
  · rw [present_of_type hs hread hsince hp hk (TypeDef.one_le_length (hn hp)),
      ← TypeDef.isAbsent_valueOf (hn hp) hlength]
    simp only [hp, true_and, Bool.decide_eq_true]
  · rw [present_of_mandatory hs.visible hsince hp]
    simp only [hp, false_and, decide_false, Bool.not_false]

theorem admits_of_value {t : TypeDef} (hs : b.Stores) (hk : b.field.kind = .type t)
    (hword : t.extent < UInt64.size) (hw : w.limit ≤ w.bytes.length) {v : Value}
    (h : b.value w = .ok v) : t.admits v := by
  obtain ⟨content, hread, rfl⟩ := read_of_value hs hk hword h
  exact TypeDef.admits_valueOf
    ((Window.length_of_read hw hread).trans (Field.extent_type hk hs.stored))

theorem exportType_of_value {t : TypeDef} (hs : b.Stores) (hk : b.field.kind = .type t)
    (hword : t.extent < UInt64.size) (hsince : b.field.since ≤ w.version)
    (hn : b.field.presence = .optional → t.nullable) (hw : w.limit ≤ w.bytes.length) {v : Value}
    (h : b.value w = .ok v) :
    b.exportType w = .ok (b.field.jsonOf (.value v) : J) := by
  have hpresent := present_of_value hs hk hword hsince hn hw h
  rw [Field.jsonOf_type hk]
  by_cases habsent : b.field.presence = .optional ∧ t.isAbsent v
  · rw [decide_eq_true habsent] at hpresent
    rw [if_pos habsent, exportType_of_absent hpresent]
  · rw [decide_eq_false habsent] at hpresent
    rw [if_neg habsent, exportType_of_present hpresent h]

theorem exportType_of_constant {t : TypeDef} (hv : b.visible = true)
    (hk : b.field.kind = .type t) (hsince : b.field.since ≤ w.version)
    (hp : b.field.presence = .constant) {c : Constant} (hc : b.field.constant = some c) :
    b.exportType w = .ok (b.field.jsonOf .none : J) := by
  have hmandatory : b.field.presence ≠ .optional := by
    rw [hp]
    decide
  rw [exportType_of_present (present_of_mandatory hv hsince hmandatory)
    (value_of_constant hk hp hc), Field.jsonOf_constant hk hc]

theorem enumRaw_le_rawMax {e : EnumDef} {n : UInt64} (hs : b.Stores) (hk : b.field.kind = .enum e)
    (hu : e.encoding.isUnsigned) (h : b.enumRaw w = .ok n) : n.toNat ≤ e.encoding.rawMax := by
  obtain ⟨content, -, rfl⟩ := read_of_enumRaw hs hk h
  exact Primitive.decode_le_rawMax hu content

theorem exportEnum_of_raw {e : EnumDef} (hs : b.Stores) (hk : b.field.kind = .enum e)
    (hsince : b.field.since ≤ w.version) {n : UInt64} (h : b.enumRaw w = .ok n) :
    b.exportEnum w = .ok (b.field.jsonOf (.raw n) : J) := by
  obtain ⟨content, hread, rfl⟩ := read_of_enumRaw hs hk h
  rw [Field.jsonOf_enum hk]
  by_cases hp : b.field.presence = .optional
  · have hpresent := present_of_enum hs hread hsince hp hk
    by_cases hnull : (e.encoding.decode content).toUInt64 = e.null
    · rw [hnull, bne_self_eq_false] at hpresent
      rw [if_pos ⟨hp, hnull⟩, exportEnum_of_absent hpresent]
    · rw [bne_iff_ne.mpr hnull] at hpresent
      rw [if_neg (fun both => hnull both.2), exportEnum_of_present hpresent hk h]
  · rw [if_neg (fun both => hp both.1),
      exportEnum_of_present (present_of_mandatory hs.visible hsince hp) hk h]

theorem exportSet_of_bits {s : SetDef} (hk : b.field.kind = .set s) (hn : s.Named) {set : BitSet}
    (h : b.bits w = .ok set) : b.exportSet w = .ok (b.field.jsonOf (.bits set) : J) := by
  have hknown : (s.choices.filter fun choice => choice.since ≤ w.version) = s.choices := by
    apply List.filter_eq_self.mpr
    intro choice hchoice
    rw [(hn.found choice hchoice).1]
    exact decide_eq_true UInt16.zero_le
  rw [exportSet, choices_of_bits hk h, hknown, Action.ok_bind, Field.jsonOf_set hk, SetDef.jsonOf]
  dsimp only
  rw [List.filter_map, List.map_map]
  rfl

theorem encoding_of_bits {s : SetDef} (hk : b.field.kind = .set s)
    (hp : b.field.presence ≠ .constant) {set : BitSet} (h : b.bits w = .ok set) :
    set.encoding = s.encoding := by
  cases hv : b.visible with
  | true =>
    obtain ⟨content, -, rfl⟩ := read_of_bits ⟨hv, hp⟩ hk h
    rfl
  | false =>
    rw [bits_of_invisible hk hv, Field.constantOr_of_stored hp] at h
    cases h
    rfl

end Binding

end SimpleBinary
