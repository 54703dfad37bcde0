import SimpleBinary.Market.Schema
import SimpleBinary.Proofs.Strides

namespace SimpleBinary

/-- What is left of a number stored with the primitive: all of it just if it is not too great. -/
structure Primitive.Cuts (p : Primitive) (n stored : Nat) : Prop where
  stored_eq : stored = n % 2 ^ p.width
  whole_iff : stored = n ↔ n ≤ p.rawMax

theorem Primitive.cuts_mod (p : Primitive) (n : Nat) : p.Cuts n (n % 2 ^ p.width) :=
  ⟨rfl, p.mod_width_eq_iff n⟩

theorem Primitive.cuts_decode_encode {p : Primitive} (hu : p.isUnsigned) (n : UInt64) :
    p.Cuts n.toNat (p.decode (p.encode (.uint n))).toUInt64.toNat := by
  have hmod := toUInt64_decode_encode_mod hu n.toNat
  rw [UInt64.ofNat_toNat] at hmod
  rw [hmod]
  exact p.cuts_mod n.toNat

namespace Binding

variable {b : Binding} {w w' : Window}

section

variable {e : EnumDef} (hw : w.Sound) (hk : b.field.kind = .enum e)
  (hp : b.field.presence ≠ .constant) (hv : b.visible = true)
include hk hp hv

theorem setEnumRaw_ok_iff (raw : UInt64) :
    (b.setEnumRaw raw w).1 = .ok ⟨⟩ ↔ b.offset + e.encoding.size ≤ w.limit := by
  rw [setEnumRaw_eq_write hk hp hv, Window.write_ok_iff, Primitive.length_encode]

include hw

theorem enumRaw_of_setEnumRaw (hu : e.encoding.isUnsigned) {raw : UInt64}
    (h : b.setEnumRaw raw w = (.ok ⟨⟩, w')) :
    ∃ stored, b.enumRaw w' = .ok stored ∧ e.encoding.Cuts raw.toNat stored.toNat := by
  rw [setEnumRaw_eq_write hk hp hv] at h
  have hread := Window.read_of_write hw.limit_le h
  rw [Primitive.length_encode] at hread
  refine ⟨_, ?_, Primitive.cuts_decode_encode hu raw⟩
  simp only [enumRaw, enumDef_eq hk, constantRaw?_of_stored hp, Action.ok_bind, hv, if_true,
    Window.readScalar_of_read hread]
  rfl

theorem enumRaw_of_setEnumName (hu : e.encoding.isUnsigned) {name : String}
    (h : b.setEnumName name w = (.ok ⟨⟩, w')) :
    ∃ raw stored, e.valueOf? name = some raw ∧ b.enumRaw w' = .ok stored ∧
      e.encoding.Cuts raw.toNat stored.toNat := by
  unfold setEnumName at h
  simp only [Action.bind_apply, Action.lift_apply, enumDef_eq hk] at h
  cases hraw : e.valueOf? name with
  | none =>
    rw [hraw] at h
    cases h
  | some raw =>
    rw [hraw] at h
    obtain ⟨stored, hstored, hcuts⟩ := enumRaw_of_setEnumRaw hw hk hp hv hu h
    exact ⟨raw, stored, rfl, hstored, hcuts⟩

end

section

variable {s : SetDef} (hw : w.Sound) (hk : b.field.kind = .set s)
  (hp : b.field.presence ≠ .constant) (hv : b.visible = true)
include hk hp hv

theorem setBits_ok_iff (set : BitSet) :
    (b.setBits set w).1 = .ok ⟨⟩ ↔ b.offset + s.encoding.size ≤ w.limit := by
  rw [setBits_eq_write hk hp hv, Window.write_ok_iff, BitSet.toBytes, Primitive.length_encode]
  rfl

include hw

theorem bits_of_setBits (hu : s.encoding.isUnsigned) {set : BitSet}
    (h : b.setBits set w = (.ok ⟨⟩, w')) :
    b.bits w' = .ok (.ofBits set.bits s.encoding) := by
  rw [setBits_eq_write hk hp hv] at h
  have hread := Window.read_of_write hw.limit_le h
  rw [BitSet.toBytes, Primitive.length_encode] at hread
  exact bits_of_read hk hp hv rfl hu hread

end

theorem stored_cut_to_width (b : Binding) (w : Window) (hw : w.Sound) (hv : b.visible = true)
    (hp : b.field.presence ≠ .constant) :
    (∀ e, b.field.kind = .enum e → e.encoding.isUnsigned →
      (∀ raw, (b.setEnumRaw raw w).1 = .ok ⟨⟩ ↔ b.offset + e.encoding.size ≤ w.limit) ∧
      (∀ raw w', b.setEnumRaw raw w = (.ok ⟨⟩, w') → ∃ stored, b.enumRaw w' = .ok stored ∧
        e.encoding.Cuts raw.toNat stored.toNat) ∧
      (∀ name w', b.setEnumName name w = (.ok ⟨⟩, w') → ∃ raw stored,
        e.valueOf? name = some raw ∧ b.enumRaw w' = .ok stored ∧
        e.encoding.Cuts raw.toNat stored.toNat)) ∧
    (∀ s, b.field.kind = .set s → s.encoding.isUnsigned →
      (∀ set, (b.setBits set w).1 = .ok ⟨⟩ ↔ b.offset + s.encoding.size ≤ w.limit) ∧
      (∀ set w', b.setBits set w = (.ok ⟨⟩, w') → ∃ stored, b.bits w' = .ok stored ∧
        stored.encoding = s.encoding ∧ s.encoding.Cuts set.bits stored.bits ∧
        ∀ bit, stored.contains bit = (decide (bit < s.encoding.width) && set.contains bit))) := by
  constructor
  · intro e hk hu
    refine ⟨setEnumRaw_ok_iff hk hp hv, ?_, ?_⟩
    · intro raw w' h
      exact enumRaw_of_setEnumRaw hw hk hp hv hu h
    · intro name w' h
      exact enumRaw_of_setEnumName hw hk hp hv hu h
  · intro s hk hu
    refine ⟨setBits_ok_iff hk hp hv, ?_⟩
    intro set w' h
    exact ⟨_, bits_of_setBits hw hk hp hv hu h, rfl, s.encoding.cuts_mod set.bits,
      BitSet.contains_ofBits set.bits s.encoding⟩

theorem stored_cut_to_width_entryType :
    ∃ w' stored,
      setEnumRaw ⟨Market.Entries.Fields.mdEntryType, 0, true⟩ 304 ⟨[0], 1, 0, 2, by decide⟩ =
        (.ok ⟨⟩, w') ∧
      enumRaw ⟨Market.Entries.Fields.mdEntryType, 0, true⟩ w' = .ok stored ∧
      stored.toNat = 304 % 2 ^ 8 := by
  obtain ⟨henum, -⟩ := stored_cut_to_width ⟨Market.Entries.Fields.mdEntryType, 0, true⟩
    ⟨[0], 1, 0, 2, by decide⟩ ⟨by decide, by decide⟩ rfl (by decide)
  obtain ⟨-, hraw, -⟩ := henum _ rfl rfl
  obtain ⟨stored, hstored, hcuts⟩ := hraw 304 _ rfl
  exact ⟨_, stored, rfl, hstored, hcuts.stored_eq⟩

theorem wide_raw_stored_as_bid :
    (∃ w', setEnumRaw ⟨Market.Entries.Fields.mdEntryType, 0, true⟩ 304 ⟨[0], 1, 0, 2, by decide⟩ =
        (.ok ⟨⟩, w') ∧
      enumRaw ⟨Market.Entries.Fields.mdEntryType, 0, true⟩ w' = .ok 48 ∧
      enumName? ⟨Market.Entries.Fields.mdEntryType, 0, true⟩ w' = .ok (some "BID")) ∧
    ∃ w', setBits ⟨Market.EmptyBook.Fields.matchEventIndicator, 0, true⟩
        ⟨.uint16, 257, by decide⟩ ⟨[0], 1, 0, 2, by decide⟩ = (.ok ⟨⟩, w') ∧
      bits ⟨Market.EmptyBook.Fields.matchEventIndicator, 0, true⟩ w' =
        .ok ⟨.uint8, 1, by decide⟩ :=
  ⟨⟨_, rfl, rfl, rfl⟩, _, rfl, rfl⟩

end Binding

end SimpleBinary
