import SimpleBinary.Proofs.Atomicity

namespace SimpleBinary

/-- Whether the field is a set that has a text for its constant. Whole sets are stored in it as if
it had none. -/
def Field.isTextSet : Field → Bool
  | ⟨_, _, _, .set _, .constant, some (.text _), _⟩ => true
  | _ => false

def ScalarArray.Whole (a : ScalarArray) : Prop :=
  a.bytes.length = a.primitive.size * a.length

def FieldOperation.Suits {α : Type} (f : Field) : FieldOperation α → Prop
  | .setValue (.array a) => a.Whole
  | @setScalar β _ _ | @setScalar? β _ _ | @setArray β _ _ | @setArrayElement β _ _ _ =>
    LawfulElement β
  | .setBits _ | .setBit _ _ | .setChoice _ _ => f.isTextSet = false
  | _ => True

def TypeDef.takes (t : TypeDef) : Value → Prop
  | .scalar _ => t.length = 1
  | .text characters => t.primitive = .char ∧ characters.length ≤ t.length
  | .array a => a.primitive = t.primitive ∧ a.length = t.length

namespace Binding

variable {α : Type} {b : Binding} {version : UInt16} {edit : Edit}

structure Stores (b : Binding) : Prop where
  visible : b.visible = true
  stored : b.field.presence ≠ .constant

theorem editVisible_eq_some {result : Except Error Edit}
    (h : b.editVisible version result = .ok (some edit)) :
    b.visible = true ∧ result = .ok edit := by
  unfold editVisible at h
  split at h
  next hv =>
    cases result with
    | ok e =>
      cases h
      exact ⟨hv, rfl⟩
    | error e => cases h
  next => cases h

theorem editNothing_ne_some {differs : Prop} [Decidable differs] :
    b.editNothing differs ≠ .ok (some edit) := by
  unfold editNothing
  split <;> simp

theorem editStored_eq_some {differs : Constant → Prop} [DecidablePred differs]
    {result : Except Error Edit}
    (h : b.editStored version differs result = .ok (some edit)) :
    b.Stores ∧ result = .ok edit := by
  unfold editStored constant? at h
  by_cases hp : b.field.presence = .constant
  · rw [if_pos hp] at h
    cases hc : b.field.constant with
    | none =>
      rw [hc] at h
      cases h
    | some constant =>
      rw [hc] at h
      exact absurd h editNothing_ne_some
  · rw [if_neg hp] at h
    obtain ⟨hv, rfl⟩ := editVisible_eq_some h
    exact ⟨⟨hv, hp⟩, rfl⟩

theorem typeDef_eq_ok {t : TypeDef} (h : b.typeDef = .ok t) : b.field.kind = .type t := by
  unfold typeDef at h
  split at h
  next hk =>
    cases h
    exact hk
  next => cases h

theorem scalarType_eq_ok [Element α] {t : TypeDef} (h : b.scalarType α = .ok t) :
    b.field.kind = .type t ∧ t.length = 1 ∧ t.primitive.size = Element.size α := by
  obtain ⟨t', ht, h⟩ := Action.except_bind_eq_ok h
  dsimp only at h
  split at h
  · cases h
  · cases h
    exact ⟨typeDef_eq_ok ht, by omega, by omega⟩

theorem arrayType_eq_ok [Element α] {t : TypeDef} (h : b.arrayType α = .ok t) :
    b.field.kind = .type t ∧ t.primitive.size = Element.size α := by
  obtain ⟨t', ht, h⟩ := Action.except_bind_eq_ok h
  dsimp only at h
  split at h
  · cases h
  · cases h
    exact ⟨typeDef_eq_ok ht, by omega⟩

theorem textCapacity_eq_ok {capacity : Nat} (h : b.textCapacity = .ok capacity) :
    ∃ t, b.field.kind = .type t ∧ t.primitive = .char ∧ t.length = capacity := by
  obtain ⟨t, ht, h⟩ := Action.except_bind_eq_ok h
  dsimp only at h
  split at h
  · cases h
  next hchar =>
    cases h
    exact ⟨t, typeDef_eq_ok ht, not_not.mp hchar, rfl⟩

theorem enumDef_eq_ok {e : EnumDef} (h : b.enumDef = .ok e) : b.field.kind = .enum e := by
  unfold enumDef at h
  split at h
  next hk =>
    cases h
    exact hk
  next => cases h

theorem setDef_eq_ok {s : SetDef} (h : b.setDef = .ok s) : b.field.kind = .set s := by
  unfold setDef at h
  split at h
  next hk =>
    cases h
    exact hk
  next => cases h

theorem stored_of_constant? (h : b.constant? = .ok none) : b.field.presence ≠ .constant := by
  intro hp
  rw [constant?, if_pos hp] at h
  cases hc : b.field.constant with
  | none =>
    rw [hc] at h
    cases h
  | some constant =>
    rw [hc] at h
    cases h

theorem stored_of_constantRaw? (h : b.constantRaw? = .ok none) : b.field.presence ≠ .constant := by
  obtain ⟨constant?, hconstant, h⟩ := Action.except_bind_eq_ok h
  rcases constant? with _ | ⟨value⟩ | ⟨characters⟩
  · exact stored_of_constant? hconstant
  · cases h
  · dsimp only at h
    split at h <;> cases h

theorem editValue_eq_ok {t : TypeDef} {v : Value} (h : b.editValue t v = .ok edit) :
    t.takes v ∧ edit = ⟨none, t.encode v⟩ := by
  unfold editValue at h
  cases v with
  | scalar scalar =>
    dsimp only at h
    split at h
    · cases h
    next hlength =>
      cases h
      exact ⟨not_not.mp hlength, rfl⟩
  | text characters =>
    dsimp only [editText] at h
    split at h
    · cases h
    next hchar =>
      split at h
      · cases h
      next hle =>
        cases h
        exact ⟨⟨not_not.mp hchar, Nat.le_of_not_lt hle⟩, rfl⟩
  | array elements =>
    dsimp only at h
    split at h
    · cases h
    next hprimitive =>
      split at h
      · cases h
      next hlength =>
        cases h
        exact ⟨⟨not_not.mp hprimitive, not_not.mp hlength⟩, rfl⟩

theorem editOf_eq_some {v : Value} (h : b.editOf version v = .ok (some edit)) :
    ∃ t, b.field.kind = .type t ∧ b.Stores ∧ t.takes v ∧ edit = ⟨none, t.encode v⟩ := by
  obtain ⟨t, ht, h⟩ := Action.except_bind_eq_ok h
  obtain ⟨hs, hedit⟩ := editStored_eq_some h
  exact ⟨t, typeDef_eq_ok ht, hs, editValue_eq_ok hedit⟩

theorem editScalar_eq_some [Element α] {v : α}
    (h : b.editScalar version v = .ok (some edit)) :
    ∃ t, b.field.kind = .type t ∧ b.Stores ∧ t.length = 1 ∧ t.primitive.size = Element.size α ∧
      edit = ⟨none, Element.encode v⟩ := by
  obtain ⟨t, ht, h⟩ := Action.except_bind_eq_ok h
  obtain ⟨hs, hedit⟩ := editStored_eq_some h
  obtain ⟨hk, hlength, hsize⟩ := scalarType_eq_ok ht
  cases hedit
  exact ⟨t, hk, hs, hlength, hsize, rfl⟩

theorem editCharacters_eq_some {characters : Bytes}
    (h : b.editCharacters version characters = .ok (some edit)) :
    ∃ t, b.field.kind = .type t ∧ b.Stores ∧ t.primitive = .char ∧ characters.length ≤ t.length ∧
      edit = ⟨none, characters.padded t.length⟩ := by
  obtain ⟨capacity, hcapacity, h⟩ := Action.except_bind_eq_ok h
  obtain ⟨hs, hedit⟩ := editStored_eq_some h
  obtain ⟨t, hk, hchar, rfl⟩ := textCapacity_eq_ok hcapacity
  unfold editText at hedit
  split at hedit
  · cases hedit
  next hle =>
    cases hedit
    exact ⟨t, hk, hs, hchar, Nat.le_of_not_lt hle, rfl⟩

theorem editElements_eq_some [Element α] {values : List α}
    (h : b.editElements version values = .ok (some edit)) :
    ∃ t, b.field.kind = .type t ∧ b.Stores ∧ t.primitive.size = Element.size α ∧
      values.length = t.length ∧ edit = ⟨none, elementBytes values⟩ := by
  obtain ⟨t, ht, h⟩ := Action.except_bind_eq_ok h
  obtain ⟨hs, hedit⟩ := editStored_eq_some h
  obtain ⟨hk, hsize⟩ := arrayType_eq_ok ht
  split at hedit
  · cases hedit
  next hlength =>
    cases hedit
    exact ⟨t, hk, hs, hsize, not_not.mp hlength, rfl⟩

theorem editElement_eq_some [Element α] {index : Nat} {v : α}
    (h : b.editElement version index v = .ok (some edit)) :
    ∃ t, b.field.kind = .type t ∧ b.Stores ∧ t.primitive.size = Element.size α ∧
      index < t.length ∧ edit = ⟨some (index * Element.size α), Element.encode v⟩ := by
  obtain ⟨t, ht, h⟩ := Action.except_bind_eq_ok h
  obtain ⟨hk, hsize⟩ := arrayType_eq_ok ht
  split at h
  · obtain ⟨_, hindex, h⟩ := Action.except_bind_eq_ok h
    obtain ⟨hs, hedit⟩ := editStored_eq_some h
    cases hedit
    unfold checkIndex at hindex
    split at hindex
    next hlt => exact ⟨t, hk, hs, hsize, hlt, rfl⟩
    next => cases hindex
  · cases h

theorem editRaw_eq_some {raw : UInt64} (h : b.editRaw version raw = .ok (some edit)) :
    ∃ e, b.field.kind = .enum e ∧ b.Stores ∧ edit = ⟨none, e.encoding.encode (.uint raw)⟩ := by
  obtain ⟨e, he, h⟩ := Action.except_bind_eq_ok h
  obtain ⟨raw?, hraw, h⟩ := Action.except_bind_eq_ok h
  cases raw? with
  | some expected => exact absurd h editNothing_ne_some
  | none =>
    obtain ⟨hv, hedit⟩ := editVisible_eq_some h
    cases hedit
    exact ⟨e, enumDef_eq_ok he, ⟨hv, stored_of_constantRaw? hraw⟩, rfl⟩

theorem editName_eq_some {name : String} (h : b.editName version name = .ok (some edit)) :
    ∃ e raw, b.field.kind = .enum e ∧ e.valueOf? name = some raw ∧
      b.editRaw version raw = .ok (some edit) := by
  obtain ⟨e, he, h⟩ := Action.except_bind_eq_ok h
  cases hraw : e.valueOf? name with
  | none =>
    rw [hraw] at h
    cases h
  | some raw =>
    rw [hraw] at h
    exact ⟨e, raw, enumDef_eq_ok he, hraw, h⟩

theorem isTextSet_of_constant? {s : SetDef} {characters : String} (hk : b.field.kind = .set s)
    (h : b.constant? = .ok (some (.text characters))) : b.field.isTextSet := by
  unfold constant? at h
  obtain ⟨⟨name, id, offset, kind, presence, constant, since⟩, start, visible⟩ := b
  cases hk
  cases presence with
  | constant =>
    cases constant with
    | none => cases h
    | some c =>
      cases h
      rfl
  | _ => cases h

theorem editBits_eq_some {set : BitSet} (h : b.editBits version set = .ok (some edit)) :
    ∃ s, b.field.kind = .set s ∧ b.visible = true ∧
      (b.field.presence ≠ .constant ∨ b.field.isTextSet) ∧
      edit = ⟨none, (BitSet.ofBits set.bits s.encoding).toBytes⟩ := by
  obtain ⟨s, hs, h⟩ := Action.except_bind_eq_ok h
  obtain ⟨constant?, hconstant, h⟩ := Action.except_bind_eq_ok h
  have hk := setDef_eq_ok hs
  rcases constant? with _ | ⟨value⟩ | ⟨characters⟩
  · obtain ⟨hv, hedit⟩ := editVisible_eq_some h
    cases hedit
    exact ⟨s, hk, hv, .inl (stored_of_constant? hconstant), rfl⟩
  · exact absurd h editNothing_ne_some
  · obtain ⟨hv, hedit⟩ := editVisible_eq_some h
    cases hedit
    exact ⟨s, hk, hv, .inr (isTextSet_of_constant? hk hconstant), rfl⟩

theorem editBit_eq_some {stored : Except Error BitSet} {bit : Nat} {on : Bool}
    (h : b.editBit version stored bit on = .ok (some edit)) :
    ∃ set, stored = .ok set ∧ bit < set.width ∧
      b.editBits version (set.assign bit on) = .ok (some edit) := by
  obtain ⟨set, hset, h⟩ := Action.except_bind_eq_ok h
  obtain ⟨changed, hchanged, h⟩ := Action.except_bind_eq_ok h
  unfold BitSet.with? BitSet.checkBit at hchanged
  split at hchanged
  next hbit =>
    cases hchanged
    exact ⟨set, hset, hbit, h⟩
  next => cases hchanged

theorem editChoice_eq_some {stored : Except Error BitSet} {name : String} {on : Bool}
    (h : b.editChoice version stored name on = .ok (some edit)) :
    ∃ s choice, b.field.kind = .set s ∧ s.choice? name = some choice ∧
      b.editBit version stored choice.bit on = .ok (some edit) := by
  obtain ⟨choice, hchoice, h⟩ := Action.except_bind_eq_ok h
  obtain ⟨s, hs, hchoice⟩ := Action.except_bind_eq_ok hchoice
  cases hnamed : s.choice? name with
  | none =>
    rw [hnamed] at hchoice
    cases hchoice
  | some found =>
    rw [hnamed] at hchoice
    cases hchoice
    exact ⟨s, _, setDef_eq_ok hs, hnamed, h⟩

theorem editOptional_eq_some (h : b.editOptional version = .ok (some edit)) :
    b.visible = true ∧ b.field.editReset version none = .ok (some edit) := by
  unfold editOptional at h
  split at h
  next hv => exact ⟨hv, h⟩
  next => cases h

end Binding

theorem Field.editReset_eq_some {f : Field} {version : UInt16} {start : Option Nat} {edit : Edit}
    (h : f.editReset version start = .ok (some edit)) :
    f.since ≤ version ∧ f.presence = .optional ∧
      f.editAbsent version start = .ok (some edit) := by
  rw [editReset_eq] at h
  split at h
  · cases h
  next hv =>
    split at h
    · cases h
    next hp => exact ⟨UInt16.not_lt.mp hv, not_not.mp hp, h⟩

section

variable {α : Type} {b : Binding} {version : UInt16} {stored : Except Error BitSet} {edit : Edit}

theorem FieldOperation.stores_or_bits {operation : FieldOperation α}
    (h : operation.edit b version stored = .ok (some edit)) :
    b.Stores ∨ ∃ set, b.editBits version set = .ok (some edit) ∧
      (operation.Suits b.field → b.field.isTextSet = false) := by
  have hreset (h : b.editOptional version = .ok (some edit)) : b.Stores := by
    obtain ⟨hv, h⟩ := Binding.editOptional_eq_some h
    obtain ⟨-, hp, -⟩ := Field.editReset_eq_some h
    exact ⟨hv, by simp [hp]⟩
  cases operation with
  | reset => exact .inl (hreset h)
  | setValue v =>
    obtain ⟨t, -, hs, -⟩ := Binding.editOf_eq_some h
    exact .inl hs
  | setScalar v =>
    obtain ⟨t, -, hs, -⟩ := Binding.editScalar_eq_some h
    exact .inl hs
  | setScalar? v? =>
    cases v? with
    | some v =>
      obtain ⟨t, -, hs, -⟩ := Binding.editScalar_eq_some h
      exact .inl hs
    | none => exact .inl (hreset h)
  | setText characters =>
    obtain ⟨t, -, hs, -⟩ := Binding.editCharacters_eq_some h
    exact .inl hs
  | setArray values =>
    obtain ⟨t, -, hs, -⟩ := Binding.editElements_eq_some h
    exact .inl hs
  | setArrayElement index v =>
    obtain ⟨t, -, hs, -⟩ := Binding.editElement_eq_some h
    exact .inl hs
  | setEnumRaw raw =>
    obtain ⟨e, -, hs, -⟩ := Binding.editRaw_eq_some h
    exact .inl hs
  | setEnumName name =>
    obtain ⟨-, raw, -, -, h⟩ := Binding.editName_eq_some h
    obtain ⟨e, -, hs, -⟩ := Binding.editRaw_eq_some h
    exact .inl hs
  | setBits set => exact .inr ⟨_, h, id⟩
  | setBit bit on =>
    obtain ⟨set, -, -, h⟩ := Binding.editBit_eq_some h
    exact .inr ⟨_, h, id⟩
  | setChoice name on =>
    obtain ⟨-, choice, -, -, h⟩ := Binding.editChoice_eq_some h
    obtain ⟨set, -, -, h⟩ := Binding.editBit_eq_some h
    exact .inr ⟨_, h, id⟩
  | _ => cases h

theorem FieldOperation.stored_of_edit {operation : FieldOperation α}
    (h : operation.edit b version stored = .ok (some edit)) :
    b.visible = true ∧ (b.field.presence ≠ .constant ∨
      b.field.isTextSet ∧ ¬ operation.Suits b.field) := by
  rcases stores_or_bits h with hs | ⟨set, h, hsuits⟩
  · exact ⟨hs.visible, .inl hs.stored⟩
  obtain ⟨s, -, hv, hp | hset, -⟩ := Binding.editBits_eq_some h
  · exact ⟨hv, .inl hp⟩
  · exact ⟨hv, .inr ⟨hset, fun hsuited => by simp [hsuits hsuited] at hset⟩⟩

theorem FieldOperation.edit_of_constant {operation : FieldOperation α}
    (hp : b.field.presence = .constant) (h : operation.edit b version stored = .ok (some edit)) :
    ∃ s, b.field.kind = .set s ∧ edit.start = none ∧ edit.part.length = s.encoding.size := by
  rcases stores_or_bits h with hs | ⟨set, h, -⟩
  · exact absurd hp hs.stored
  obtain ⟨s, hk, -, -, rfl⟩ := Binding.editBits_eq_some h
  exact ⟨s, hk, rfl, Primitive.length_encode _ _⟩

end

namespace Field

def isPlain (f : Field) : Bool :=
  match f.kind with
  | .type _ | .enum _ | .set _ => true
  | _ => false

variable {f : Field}

theorem length_absent_type {t : TypeDef} (hk : f.kind = .type t) :
    f.absent.length = t.encodedLength := by
  simp [absent, hk, t.encodedLength_div_mul]

theorem length_absent_le (hf : f.isPlain) (hp : f.presence ≠ .constant) :
    f.absent.length ≤ f.extent := by
  unfold isPlain at hf
  cases hk : f.kind with
  | type t =>
    rw [length_absent_type hk, extent_type hk hp]
    exact wordOf_le _
  | enum e => simp [extent_enum hk hp, absent, hk]
  | set s => simp [extent_set hk hp, absent, hk]
  | _ =>
    rw [hk] at hf
    cases hf

theorem length_absent (hf : f.isPlain) (hp : f.presence ≠ .constant)
    (hword : f.extent < UInt64.size) : f.absent.length = f.extent := by
  unfold isPlain at hf
  cases hk : f.kind with
  | type t =>
    rw [extent_type hk hp] at hword ⊢
    exact (length_absent_type hk).trans (wordOf_of_lt hword)
  | enum e => simp [extent_enum hk hp, absent, hk]
  | set s => simp [extent_set hk hp, absent, hk]
  | _ =>
    rw [hk] at hf
    cases hf

theorem editAbsent_of_isPlain (hf : f.isPlain) (version : UInt16) (start : Option Nat) :
    f.editAbsent version start = .ok (some ⟨start, f.absent⟩) := by
  unfold isPlain at hf
  rw [editAbsent]
  cases hk : f.kind with
  | type | enum | set => rfl
  | _ =>
    rw [hk] at hf
    cases hf

end Field

namespace TypeDef

variable {t : TypeDef} {α : Type} [Element α]

theorem extent_of_char (h : t.primitive = .char) : t.extent = t.length := by
  rw [extent, h, Primitive.size, Nat.one_mul]

theorem encodedLength_of_char (h : t.primitive = .char) : t.encodedLength = t.length := by
  rw [encodedLength, extent_of_char h, wordOf_of_lt t.length_lt]

theorem length_encode_of_takes {v : Value} (h : t.takes v) (hv : ∀ a, v = .array a → a.Whole) :
    (t.encode v).length = t.extent := by
  cases v with
  | scalar s =>
    have hone : t.length = 1 := h
    rw [encode, Primitive.length_encode, extent, hone, Nat.mul_one]
  | text characters => rw [encode, Bytes.length_padded h.2, extent_of_char h.1]
  | array a =>
    have hwhole : a.bytes.length = a.primitive.size * a.length := hv a rfl
    rw [encode, extent, hwhole, h.1, h.2]

theorem length_elementBytes [LawfulElement α] (values : List α) :
    (elementBytes values).length = Element.size α * values.length := by
  simp [elementBytes, List.length_flatMap, LawfulElement.length_encode, Nat.mul_comm]

end TypeDef

section

variable {α : Type} {b : Binding} {version : UInt16} {stored : Except Error BitSet} {edit : Edit}

theorem Binding.editOptional_within (hf : b.field.isPlain)
    (h : b.editOptional version = .ok (some edit)) :
    b.Stores ∧ edit = ⟨none, b.field.absent⟩ := by
  obtain ⟨hv, h⟩ := editOptional_eq_some h
  obtain ⟨-, hp, h⟩ := Field.editReset_eq_some h
  rw [Field.editAbsent_of_isPlain hf] at h
  cases h
  exact ⟨⟨hv, by simp [hp]⟩, rfl⟩

theorem Binding.editScalar_within [Element α] [LawfulElement α] {v : α}
    (h : b.editScalar version v = .ok (some edit)) :
    edit.shift + edit.part.length = b.field.extent := by
  obtain ⟨t, hk, hs, hlength, hsize, rfl⟩ := editScalar_eq_some h
  rw [Field.extent_type hk hs.stored, TypeDef.extent, hlength, hsize,
    LawfulElement.length_encode, Nat.mul_one, Edit.shift, Option.getD_none, Nat.zero_add]

theorem Binding.editRaw_within {raw : UInt64} (h : b.editRaw version raw = .ok (some edit)) :
    edit.shift + edit.part.length = b.field.extent := by
  obtain ⟨e, hk, hs, rfl⟩ := editRaw_eq_some h
  rw [Field.extent_enum hk hs.stored, Primitive.length_encode, Edit.shift, Option.getD_none,
    Nat.zero_add]

theorem Binding.editBits_within (hset : b.field.isTextSet = false) {set : BitSet}
    (h : b.editBits version set = .ok (some edit)) :
    edit.shift + edit.part.length = b.field.extent := by
  obtain ⟨s, hk, -, hstored, rfl⟩ := editBits_eq_some h
  have hp : b.field.presence ≠ .constant := hstored.resolve_right (by simp [hset])
  rw [Field.extent_set hk hp, BitSet.toBytes, Primitive.length_encode, Edit.shift, Option.getD_none,
    Nat.zero_add]
  rfl

theorem FieldOperation.edit_within {operation : FieldOperation α} (hf : b.field.isPlain)
    (hs : operation.Suits b.field) (h : operation.edit b version stored = .ok (some edit)) :
    edit.shift + edit.part.length ≤ b.field.extent := by
  have hreset (h : b.editOptional version = .ok (some edit)) :
      edit.shift + edit.part.length ≤ b.field.extent := by
    obtain ⟨hstores, rfl⟩ := Binding.editOptional_within hf h
    rw [Edit.shift, Option.getD_none, Nat.zero_add]
    exact Field.length_absent_le hf hstores.stored
  cases operation with
  | reset => exact hreset h
  | setValue v =>
    obtain ⟨t, hk, hstores, htakes, rfl⟩ := Binding.editOf_eq_some h
    have hwhole : ∀ a, v = .array a → a.Whole := by
      rintro a rfl
      exact hs
    rw [Field.extent_type hk hstores.stored, TypeDef.length_encode_of_takes htakes hwhole,
      Edit.shift, Option.getD_none, Nat.zero_add]
  | setScalar v =>
    have : LawfulElement _ := hs
    exact Nat.le_of_eq (Binding.editScalar_within h)
  | setScalar? v? =>
    have : LawfulElement _ := hs
    cases v? with
    | some v => exact Nat.le_of_eq (Binding.editScalar_within h)
    | none => exact hreset h
  | setText characters =>
    obtain ⟨t, hk, hstores, hchar, hle, rfl⟩ := Binding.editCharacters_eq_some h
    rw [Field.extent_type hk hstores.stored, TypeDef.extent_of_char hchar,
      Bytes.length_padded hle, Edit.shift, Option.getD_none, Nat.zero_add]
  | setArray values =>
    have : LawfulElement _ := hs
    obtain ⟨t, hk, hstores, hsize, hlength, rfl⟩ := Binding.editElements_eq_some h
    rw [Field.extent_type hk hstores.stored, TypeDef.length_elementBytes, hlength, ← hsize,
      Edit.shift, Option.getD_none, Nat.zero_add]
    rfl
  -- The one edit behind the place of the field: it ends where the next element begins.
  | setArrayElement index v =>
    have : LawfulElement _ := hs
    obtain ⟨t, hk, hstores, hsize, hlt, rfl⟩ := Binding.editElement_eq_some h
    rw [Field.extent_type hk hstores.stored, LawfulElement.length_encode,
      TypeDef.extent, hsize, Nat.mul_comm _ t.length, Edit.shift, Option.getD_some, ← Nat.succ_mul]
    exact Nat.mul_le_mul_right _ hlt
  | setEnumRaw raw => exact Nat.le_of_eq (Binding.editRaw_within h)
  | setEnumName name =>
    obtain ⟨-, raw, -, -, h⟩ := Binding.editName_eq_some h
    exact Nat.le_of_eq (Binding.editRaw_within h)
  | setBits set => exact Nat.le_of_eq (Binding.editBits_within hs h)
  | setBit bit on =>
    obtain ⟨set, -, -, h⟩ := Binding.editBit_eq_some h
    exact Nat.le_of_eq (Binding.editBits_within hs h)
  | setChoice name on =>
    obtain ⟨-, choice, -, -, h⟩ := Binding.editChoice_eq_some h
    obtain ⟨set, -, -, h⟩ := Binding.editBit_eq_some h
    exact Nat.le_of_eq (Binding.editBits_within hs h)
  | _ => cases h

end

end SimpleBinary
