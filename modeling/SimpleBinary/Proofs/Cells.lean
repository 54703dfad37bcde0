import SimpleBinary.Proofs.Footprint

/-!
The bytes of a field as a cell of its own. What the views of a field read is read from its cell, and
a write leaves in the cell what the field is then read as: the value as a whole, or the value from
before with one element or one bit of it exchanged.
-/

namespace SimpleBinary

class FaithfulElement (α : Type) [Element α] : Prop extends LawfulElement α where
  decode_encode (value : α) : Element.decode (Element.encode value) = value

namespace FaithfulElement

theorem of_number {α : Type} [Element α] [LawfulElement α] (number : α → Nat) (ofNumber : Nat → α)
    (hencode : ∀ value, Element.encode value = LittleEndian.encode (Element.size α) (number value))
    (hdecode : ∀ bytes, Element.decode bytes =
      ofNumber (LittleEndian.decode (bytes.take (Element.size α))))
    (hlt : ∀ value, number value < 256 ^ Element.size α)
    (hsame : ∀ value, ofNumber (number value) = value) : FaithfulElement α where
  decode_encode value := by
    rw [hencode, hdecode, List.take_of_length_le (by simp), LittleEndian.decode_encode,
      Nat.mod_eq_of_lt (hlt value), hsame]

instance : FaithfulElement UInt8 :=
  of_number UInt8.toNat UInt8.ofNat (fun _ => rfl) (fun _ => rfl) (fun value => value.toNat_lt)
    fun _ => UInt8.ofNat_toNat

instance : FaithfulElement UInt16 :=
  of_number UInt16.toNat UInt16.ofNat (fun _ => rfl) (fun _ => rfl) (fun value => value.toNat_lt)
    fun _ => UInt16.ofNat_toNat

instance : FaithfulElement UInt32 :=
  of_number UInt32.toNat UInt32.ofNat (fun _ => rfl) (fun _ => rfl) (fun value => value.toNat_lt)
    fun _ => UInt32.ofNat_toNat

instance : FaithfulElement UInt64 :=
  of_number UInt64.toNat UInt64.ofNat (fun _ => rfl) (fun _ => rfl) (fun value => value.toNat_lt)
    fun _ => UInt64.ofNat_toNat

instance : FaithfulElement Int8 :=
  of_number (·.toUInt8.toNat) Int8.ofNat (fun _ => rfl) (fun _ => rfl)
    (fun value => value.toUInt8.toNat_lt) fun _ => congrArg UInt8.toInt8 UInt8.ofNat_toNat

instance : FaithfulElement Int16 :=
  of_number (·.toUInt16.toNat) Int16.ofNat (fun _ => rfl) (fun _ => rfl)
    (fun value => value.toUInt16.toNat_lt) fun _ => congrArg UInt16.toInt16 UInt16.ofNat_toNat

instance : FaithfulElement Int32 :=
  of_number (·.toUInt32.toNat) Int32.ofNat (fun _ => rfl) (fun _ => rfl)
    (fun value => value.toUInt32.toNat_lt) fun _ => congrArg UInt32.toInt32 UInt32.ofNat_toNat

instance : FaithfulElement Int64 :=
  of_number (·.toUInt64.toNat) Int64.ofNat (fun _ => rfl) (fun _ => rfl)
    (fun value => value.toUInt64.toNat_lt) fun _ => congrArg UInt64.toInt64 UInt64.ofNat_toNat

instance : FaithfulElement Binary32 :=
  of_number (·.bits.toNat) (⟨UInt32.ofNat ·⟩) (fun _ => rfl) (fun _ => rfl)
    (fun value => value.bits.toNat_lt) fun _ => congrArg Binary32.mk UInt32.ofNat_toNat

instance : FaithfulElement Binary64 :=
  of_number (·.bits.toNat) (⟨UInt64.ofNat ·⟩) (fun _ => rfl) (fun _ => rfl)
    (fun value => value.bits.toNat_lt) fun _ => congrArg Binary64.mk UInt64.ofNat_toNat

end FaithfulElement

namespace Bytes

theorem getElem?_pieces (size count : Nat) (bytes : Bytes) (i : Nat) :
    (pieces size count bytes)[i]? =
      if i < count then some (slice bytes (i * size) size) else none := by
  induction count generalizing bytes i with
  | zero => simp [pieces]
  | succ count ih =>
    cases i with
    | zero => simp [pieces, slice]
    | succ i =>
      have hplace :
          slice (bytes.drop size) (i * size) size = slice bytes ((i + 1) * size) size := by
        rw [slice, slice, List.drop_drop, Nat.add_comm size, ← Nat.succ_mul]
      rw [pieces, List.getElem?_cons_succ, ih, hplace]
      simp only [Nat.add_lt_add_iff_right]

theorem length_pieces (size count : Nat) (bytes : Bytes) :
    (pieces size count bytes).length = count := by
  induction count generalizing bytes with
  | zero => rfl
  | succ count ih => rw [pieces, List.length_cons, ih]

theorem apart_pieces {i j : Nat} (h : i ≠ j) (size : Nat) :
    Apart (i * size) size (j * size) size := by
  rcases Nat.lt_or_gt_of_ne h with hlt | hlt
  · have := Nat.mul_le_mul_right size hlt
    rw [Nat.succ_mul] at this
    exact .inr (.inr (.inl this))
  · have := Nat.mul_le_mul_right size hlt
    rw [Nat.succ_mul] at this
    exact .inr (.inr (.inr this))

theorem overwrite_whole {bytes part : Bytes} (h : part.length = bytes.length) :
    overwrite bytes 0 part = part := by
  rw [overwrite, List.take_zero, Nat.zero_add, h, List.drop_length, List.nil_append,
    List.append_nil]

end Bytes

section

variable {α : Type} [Element α] [FaithfulElement α]

theorem elements_elementBytes (hsize : 0 < Element.size α) (values : List α) :
    elements α (elementBytes values) = values := by
  induction values with
  | nil => simp [elements, elementBytes, Bytes.pieces]
  | cons v rest ih =>
    have hlength : (Element.encode v).length = Element.size α := LawfulElement.length_encode v
    have hcount : (elementBytes (v :: rest)).length / Element.size α =
        (elementBytes rest).length / Element.size α + 1 := by
      rw [elementBytes, List.flatMap_cons, List.length_append, hlength, Nat.add_comm,
        Nat.add_div_right _ hsize]
      rfl
    have hfront : (elementBytes (v :: rest)).take (Element.size α) = Element.encode v := by
      rw [elementBytes, List.flatMap_cons, ← hlength, List.take_left]
    have hback : (elementBytes (v :: rest)).drop (Element.size α) = elementBytes rest := by
      rw [elementBytes, List.flatMap_cons, ← hlength, List.drop_left]
      rfl
    rw [elements, hcount, Bytes.pieces, hfront, hback, List.map_cons,
      FaithfulElement.decode_encode]
    exact congrArg (v :: ·) ih

theorem elements_overwrite (hsize : 0 < Element.size α) {content : Bytes} {index : Nat}
    (h : index * Element.size α + Element.size α ≤ content.length) (v : α) :
    elements α (content.overwrite (index * Element.size α) (Element.encode v)) =
      (elements α content).set index v := by
  have hlength : (Element.encode v).length = Element.size α := LawfulElement.length_encode v
  have hwhole : index * Element.size α + (Element.encode v).length ≤ content.length := by
    rwa [hlength]
  have hindex : index < content.length / Element.size α := by
    rw [Nat.lt_iff_add_one_le, Nat.le_div_iff_mul_le hsize, Nat.succ_mul]
    exact h
  apply List.ext_getElem?
  intro i
  rw [List.getElem?_set, elements, elements, Bytes.length_overwrite hwhole, List.getElem?_map,
    List.getElem?_map, Bytes.getElem?_pieces, Bytes.getElem?_pieces, List.length_map,
    Bytes.length_pieces]
  by_cases hi : index = i
  · subst hi
    have hslice : (content.overwrite (index * Element.size α) (Element.encode v)).slice
        (index * Element.size α) (Element.encode v).length = Element.encode v :=
      Bytes.slice_overwrite (by omega)
    rw [hlength] at hslice
    rw [if_pos hindex, if_pos rfl, if_pos hindex, hslice, Option.map_some,
      FaithfulElement.decode_encode]
  · have hapart := Bytes.apart_pieces hi (Element.size α)
    rw [if_neg hi, Bytes.slice_overwrite_apart hwhole (by rwa [hlength])]

end

def TypeDef.valueOf (t : TypeDef) (content : Bytes) : Value :=
  if t.length = 1 then .scalar (t.primitive.decode content)
  else if t.isText then .text content.untilZero
  else .array (.ofBytes content t.primitive)

theorem TypeDef.valueOf_encode {t : TypeDef} {v : Value} (h : t.admits v) :
    t.valueOf (t.encode v) = v := by
  unfold valueOf
  cases v with
  | scalar s => rw [if_pos h.1, encode, Primitive.decode_encode h.2]
  | text characters =>
    rw [if_neg (length_ne_one_of_isText h.1), if_pos h.1, encode, Bytes.untilZero_padded h.2.1]
  | array a => rw [if_neg h.1, if_neg (by rw [h.2.1]; decide), encode, ofBytes_array h]

namespace Field

def ShowsRaw (f : Field) (raw : UInt64) (after : Bytes) : Prop :=
  ∃ e, f.kind = .enum e ∧ after = e.encoding.encode (.uint raw) ∧
    (e.encoding.isUnsigned → raw.toNat ≤ e.encoding.rawMax →
      (e.encoding.decode after).toUInt64 = raw)

def ShowsBits (f : Field) (set : BitSet) (after : Bytes) : Prop :=
  ∃ s, f.kind = .set s ∧ after = (BitSet.ofBits set.bits s.encoding).toBytes ∧
    (s.encoding.isUnsigned → BitSet.ofBytes after s.encoding = .ofBits set.bits s.encoding)

structure Cleared (f : Field) (after : Bytes) : Prop where
  content : after = f.absent
  type (t : TypeDef) (hk : f.kind = .type t) (hn : t.primitive.Represents t.null) (index : Nat)
    (hi : index < t.length) :
    t.primitive.decode (after.slice (index * t.primitive.size) t.primitive.size) = t.null
  enum (e : EnumDef) (hk : f.kind = .enum e) (hu : e.encoding.isUnsigned)
    (hn : e.null.toNat ≤ e.encoding.rawMax) : (e.encoding.decode after).toUInt64 = e.null
  set (s : SetDef) (hk : f.kind = .set s) (hu : s.encoding.isUnsigned) :
    BitSet.ofBytes after s.encoding = .empty s.encoding

theorem showsRaw_encode {f : Field} {e : EnumDef} (hk : f.kind = .enum e) (raw : UInt64) :
    f.ShowsRaw raw (e.encoding.encode (.uint raw)) := by
  refine ⟨e, hk, rfl, ?_⟩
  intro hu hle
  have hrepresents : e.encoding.Represents (.uint raw) := ⟨hu, hle⟩
  rw [Primitive.decode_encode hrepresents]
  rfl

theorem showsBits_toBytes {f : Field} {s : SetDef} (hk : f.kind = .set s) (set : BitSet) :
    f.ShowsBits set (BitSet.ofBits set.bits s.encoding).toBytes :=
  ⟨s, hk, rfl, fun hu => BitSet.ofBytes_toBytes (Primitive.isFloat_of_isUnsigned hu)⟩

theorem slice_flatten_replicate (part : Bytes) {count index : Nat} (h : index < count) :
    Bytes.slice (List.replicate count part).flatten (index * part.length) part.length = part := by
  induction index generalizing count with
  | zero =>
    obtain ⟨rest, rfl⟩ := Nat.exists_eq_add_of_lt h
    rw [Nat.zero_mul, Bytes.slice, List.drop_zero, Nat.zero_add, List.replicate_succ,
      List.flatten_cons, List.take_left]
  | succ index ih =>
    cases count with
    | zero => omega
    | succ count =>
      have hplace : (index + 1) * part.length - part.length = index * part.length := by
        rw [Nat.succ_mul, Nat.add_sub_cancel]
      rw [List.replicate_succ, List.flatten_cons, Bytes.slice_append_right
        (Nat.le_mul_of_pos_left _ (Nat.succ_pos index)), hplace]
      exact ih (Nat.lt_of_succ_lt_succ h)

theorem absent_type {f : Field} {t : TypeDef} (hk : f.kind = .type t)
    (hword : t.extent < UInt64.size) :
    f.absent = (List.replicate t.length (t.primitive.encode t.null)).flatten := by
  have hcount : t.encodedLength / t.primitive.size = t.length := by
    rw [TypeDef.encodedLength, wordOf_of_lt hword, TypeDef.extent,
      Nat.mul_div_cancel_left _ t.primitive.size_pos]
  rw [absent, hk]
  dsimp only
  rw [hcount]

theorem cleared_absent {f : Field} (hp : f.presence ≠ .constant)
    (hword : f.extent < UInt64.size) : f.Cleared f.absent where
  content := rfl
  type t hk hn index hi := by
    rw [extent_type hk hp] at hword
    have hslice := slice_flatten_replicate (t.primitive.encode t.null) hi
    rw [Primitive.length_encode] at hslice
    rw [absent_type hk hword, hslice, Primitive.decode_encode hn]
  enum e hk hu hn := by
    have hrepresents : e.encoding.Represents (.uint e.null) := ⟨hu, hn⟩
    rw [absent, hk, Primitive.decode_encode hrepresents]
    rfl
  set s hk hu := by
    have hempty : (BitSet.empty s.encoding).encoding.isFloat = false :=
      Primitive.isFloat_of_isUnsigned hu
    rw [absent, hk]
    exact BitSet.ofBytes_toBytes hempty

end Field

/-- What a write makes of the content of a field, and what is read of it then. -/
def FieldOperation.Settles {α : Type} (f : Field) (before after : Bytes) : FieldOperation α → Prop
  | .reset => f.Cleared after
  | .setValue v => ∃ t, f.kind = .type t ∧ after = t.encode v ∧ (t.admits v → t.valueOf after = v)
  | @setScalar β _ v => after = Element.encode v ∧ (FaithfulElement β → Element.decode after = v)
  | @setScalar? β _ (some v) =>
    after = Element.encode v ∧ (FaithfulElement β → Element.decode after = v)
  | @setScalar? _ _ none => f.Cleared after
  | .setText characters => ∃ t, f.kind = .type t ∧ after = characters.padded t.length ∧
      (0 ∉ characters → after.untilZero = characters)
  | @setArray β _ values =>
    after = elementBytes values ∧ (FaithfulElement β → elements β after = values)
  | @setArrayElement β _ index v =>
    after = before.overwrite (index * Element.size β) (Element.encode v) ∧
      (FaithfulElement β → elements β after = (elements β before).set index v)
  | .setEnumRaw raw => f.ShowsRaw raw after
  | .setEnumName name => ∃ e raw, f.kind = .enum e ∧ e.valueOf? name = some raw ∧
      f.ShowsRaw raw after
  | .setBits set => f.ShowsBits set after
  | .setBit bit on => ∃ s, f.kind = .set s ∧
      f.ShowsBits ((BitSet.ofBytes before s.encoding).assign bit on) after
  | .setChoice name on => ∃ s choice, f.kind = .set s ∧ s.choice? name = some choice ∧
      f.ShowsBits ((BitSet.ofBytes before s.encoding).assign choice.bit on) after
  | _ => after = before

namespace Binding

variable {α : Type} {b : Binding} {version : UInt16}

theorem editVisible_of_stores (hs : b.Stores) (result : Except Error Edit) :
    b.editVisible version result = result.map some := by
  rw [editVisible, if_pos hs.visible]

theorem map_some_ne_none {result : Except Error Edit} : result.map some ≠ .ok none := by
  cases result <;> simp [Except.map]

theorem editStored_ne_none (hs : b.Stores) {differs : Constant → Prop} [DecidablePred differs]
    {result : Except Error Edit} : b.editStored version differs result ≠ .ok none := by
  rw [editStored, constant?_of_stored hs.stored, Action.ok_bind]
  dsimp only
  rw [editVisible_of_stores hs]
  exact map_some_ne_none

theorem editOptional_ne_none (hf : b.field.isPlain) : b.editOptional version ≠ .ok none := by
  unfold editOptional
  rw [Field.editReset_eq, Field.editAbsent_of_isPlain hf]
  split
  · split
    · simp
    · split <;> simp
  · simp

theorem editRaw_ne_none (hs : b.Stores) {raw : UInt64} : b.editRaw version raw ≠ .ok none := by
  intro h
  obtain ⟨e, -, h⟩ := Action.except_bind_eq_ok h
  rw [constantRaw?_of_stored hs.stored, Action.ok_bind] at h
  dsimp only at h
  rw [editVisible_of_stores hs] at h
  exact map_some_ne_none h

theorem editBits_ne_none (hs : b.Stores) {set : BitSet} : b.editBits version set ≠ .ok none := by
  intro h
  obtain ⟨s, -, h⟩ := Action.except_bind_eq_ok h
  rw [constant?_of_stored hs.stored, Action.ok_bind] at h
  dsimp only at h
  rw [editVisible_of_stores hs] at h
  exact map_some_ne_none h

end Binding

theorem FieldOperation.edit_ne_none {α : Type} {b : Binding} {version : UInt16}
    {stored : Except Error BitSet} {operation : FieldOperation α} (hf : b.field.isPlain)
    (hs : b.Stores) (hw : operation.readsOnly = false) :
    operation.edit b version stored ≠ .ok none := by
  intro h
  cases operation with
  | reset => exact Binding.editOptional_ne_none hf h
  | setValue v =>
    obtain ⟨t, -, h⟩ := Action.except_bind_eq_ok h
    exact Binding.editStored_ne_none hs h
  | setScalar v =>
    obtain ⟨t, -, h⟩ := Action.except_bind_eq_ok h
    exact Binding.editStored_ne_none hs h
  | setScalar? v? =>
    cases v? with
    | some v =>
      obtain ⟨t, -, h⟩ := Action.except_bind_eq_ok h
      exact Binding.editStored_ne_none hs h
    | none => exact Binding.editOptional_ne_none hf h
  | setText characters =>
    obtain ⟨capacity, -, h⟩ := Action.except_bind_eq_ok h
    exact Binding.editStored_ne_none hs h
  | setArray values =>
    obtain ⟨t, -, h⟩ := Action.except_bind_eq_ok h
    exact Binding.editStored_ne_none hs h
  | setArrayElement index v =>
    obtain ⟨t, -, h⟩ := Action.except_bind_eq_ok h
    rw [if_pos hs.visible] at h
    obtain ⟨_, -, h⟩ := Action.except_bind_eq_ok h
    exact Binding.editStored_ne_none hs h
  | setEnumRaw raw => exact Binding.editRaw_ne_none hs h
  | setEnumName name =>
    obtain ⟨e, -, h⟩ := Action.except_bind_eq_ok h
    cases hraw : e.valueOf? name with
    | none =>
      rw [hraw] at h
      cases h
    | some raw =>
      rw [hraw] at h
      exact Binding.editRaw_ne_none hs h
  | setBits set => exact Binding.editBits_ne_none hs h
  | setBit bit on =>
    obtain ⟨set, -, h⟩ := Action.except_bind_eq_ok h
    obtain ⟨changed, -, h⟩ := Action.except_bind_eq_ok h
    exact Binding.editBits_ne_none hs h
  | setChoice name on =>
    obtain ⟨choice, -, h⟩ := Action.except_bind_eq_ok h
    obtain ⟨set, -, h⟩ := Action.except_bind_eq_ok h
    obtain ⟨changed, -, h⟩ := Action.except_bind_eq_ok h
    exact Binding.editBits_ne_none hs h
  | _ => cases hw

section

variable {α : Type} {b : Binding} {version : UInt16} {stored : Except Error BitSet} {edit : Edit}
  {before : Bytes}

theorem Binding.editScalar_settles [Element α] [LawfulElement α] {v : α}
    (hl : before.length = b.field.extent) (h : b.editScalar version v = .ok (some edit)) :
    before.overwrite edit.shift edit.part = Element.encode v ∧
      (FaithfulElement α → Element.decode (before.overwrite edit.shift edit.part) = v) := by
  have hwithin := editScalar_within h
  obtain ⟨t, -, -, -, -, rfl⟩ := editScalar_eq_some h
  rw [← hl, Edit.shift, Option.getD_none, Nat.zero_add] at hwithin
  rw [Edit.shift, Option.getD_none, Bytes.overwrite_whole hwithin]
  exact ⟨rfl, fun _ => FaithfulElement.decode_encode v⟩

theorem Binding.editRaw_settles {raw : UInt64} (hl : before.length = b.field.extent)
    (h : b.editRaw version raw = .ok (some edit)) :
    b.field.ShowsRaw raw (before.overwrite edit.shift edit.part) := by
  have hwithin := editRaw_within h
  obtain ⟨e, hk, -, rfl⟩ := editRaw_eq_some h
  rw [← hl, Edit.shift, Option.getD_none, Nat.zero_add] at hwithin
  rw [Edit.shift, Option.getD_none, Bytes.overwrite_whole hwithin]
  exact Field.showsRaw_encode hk raw

theorem Binding.editBits_settles (hset : b.field.isTextSet = false) {set : BitSet}
    (hl : before.length = b.field.extent) (h : b.editBits version set = .ok (some edit)) :
    b.field.ShowsBits set (before.overwrite edit.shift edit.part) := by
  have hwithin := editBits_within hset h
  obtain ⟨s, hk, -, -, rfl⟩ := editBits_eq_some h
  rw [← hl, Edit.shift, Option.getD_none, Nat.zero_add] at hwithin
  rw [Edit.shift, Option.getD_none, Bytes.overwrite_whole hwithin]
  exact Field.showsBits_toBytes hk set

theorem Binding.editOptional_settles (hf : b.field.isPlain)
    (hl : before.length = b.field.extent) (hword : b.field.extent < UInt64.size)
    (h : b.editOptional version = .ok (some edit)) :
    b.field.Cleared (before.overwrite edit.shift edit.part) := by
  obtain ⟨hs, rfl⟩ := editOptional_within hf h
  rw [Edit.shift, Option.getD_none,
    Bytes.overwrite_whole (by rw [hl, Field.length_absent hf hs.stored hword])]
  exact Field.cleared_absent hs.stored hword

theorem FieldOperation.settles_of_edit {operation : FieldOperation α} (hf : b.field.isPlain)
    (hs : operation.Suits b.field) (hl : before.length = b.field.extent)
    (hword : b.field.extent < UInt64.size)
    (hstored : ∀ s, b.field.kind = .set s → stored = .ok (.ofBytes before s.encoding))
    (h : operation.edit b version stored = .ok (some edit)) :
    operation.Settles b.field before (before.overwrite edit.shift edit.part) := by
  cases operation with
  | reset => exact Binding.editOptional_settles hf hl hword h
  -- The value is as long as the field, so nothing of what was there before is left.
  | setValue v =>
    have hwithin := FieldOperation.edit_within hf hs h
    obtain ⟨t, hk, hstores, htakes, rfl⟩ := Binding.editOf_eq_some h
    have hwhole : ∀ a, v = .array a → a.Whole := by
      rintro a rfl
      exact hs
    have hlength : (t.encode v).length = before.length := by
      rw [hl, Field.extent_type hk hstores.stored,
        TypeDef.length_encode_of_takes htakes hwhole]
    rw [Edit.shift, Option.getD_none, Bytes.overwrite_whole hlength]
    exact ⟨t, hk, rfl, TypeDef.valueOf_encode⟩
  | setScalar v =>
    have : LawfulElement _ := hs
    exact Binding.editScalar_settles hl h
  | setScalar? v? =>
    have : LawfulElement _ := hs
    cases v? with
    | some v => exact Binding.editScalar_settles hl h
    | none => exact Binding.editOptional_settles hf hl hword h
  | setText characters =>
    obtain ⟨t, hk, hstores, hchar, hle, rfl⟩ := Binding.editCharacters_eq_some h
    have hlength : (characters.padded t.length).length = before.length := by
      rw [hl, Field.extent_type hk hstores.stored, TypeDef.extent_of_char hchar,
        Bytes.length_padded hle]
    rw [Edit.shift, Option.getD_none, Bytes.overwrite_whole hlength]
    exact ⟨t, hk, rfl, fun hzero => Bytes.untilZero_padded hzero _⟩
  | setArray values =>
    have : LawfulElement _ := hs
    obtain ⟨t, hk, hstores, hsize, hlength, rfl⟩ := Binding.editElements_eq_some h
    have hwhole : (elementBytes values).length = before.length := by
      rw [hl, Field.extent_type hk hstores.stored, TypeDef.length_elementBytes, hlength,
        ← hsize]
      rfl
    rw [Edit.shift, Option.getD_none, Bytes.overwrite_whole hwhole]
    exact ⟨rfl, fun _ => elements_elementBytes (hsize ▸ t.primitive.size_pos) values⟩
  | setArrayElement index v =>
    have : LawfulElement _ := hs
    have hwithin := FieldOperation.edit_within hf hs h
    obtain ⟨t, hk, hstores, hsize, hlt, rfl⟩ := Binding.editElement_eq_some h
    rw [LawfulElement.length_encode, ← hl] at hwithin
    exact ⟨rfl, fun _ => elements_overwrite (hsize ▸ t.primitive.size_pos) hwithin v⟩
  | setEnumRaw raw => exact Binding.editRaw_settles hl h
  | setEnumName name =>
    obtain ⟨e, raw, hk, hraw, h⟩ := Binding.editName_eq_some h
    exact ⟨e, raw, hk, hraw, Binding.editRaw_settles hl h⟩
  | setBits set => exact Binding.editBits_settles hs hl h
  -- The edit is made of the bits that were stored, which are those of the content before.
  | setBit bit on =>
    obtain ⟨set, hset, -, h⟩ := Binding.editBit_eq_some h
    obtain ⟨s, hk, -⟩ := Binding.editBits_eq_some h
    cases (hstored s hk).symm.trans hset
    exact ⟨s, hk, Binding.editBits_settles hs hl h⟩
  | setChoice name on =>
    obtain ⟨s, choice, hk, hchoice, h⟩ := Binding.editChoice_eq_some h
    obtain ⟨set, hset, -, h⟩ := Binding.editBit_eq_some h
    cases (hstored s hk).symm.trans hset
    exact ⟨s, choice, hk, hchoice, Binding.editBits_settles hs hl h⟩
  | _ => cases h

end

end SimpleBinary
