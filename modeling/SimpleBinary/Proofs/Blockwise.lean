import SimpleBinary.Proofs.Footprint

/-!
Operations on the fixed fields of a block: what they give is settled by the bytes of the block, and
no byte outside of the block is changed.
-/

namespace SimpleBinary

def Field.readLength (f : Field) : Nat :=
  match f.kind with
  | .type t => t.readLength f.presence
  | .enum e => e.encoding.size
  | .set s => s.encoding.size
  | .composite _ | .group _ | .data _ => 0

namespace Field

variable {f : Field} {version : UInt16} {length start : Nat}

theorem readLength_type {t : TypeDef} (hk : f.kind = .type t) :
    f.readLength = t.readLength f.presence := by
  rw [readLength, hk]

theorem readLength_enum {e : EnumDef} (hk : f.kind = .enum e) :
    f.readLength = e.encoding.size := by
  rw [readLength, hk]

theorem readLength_set {s : SetDef} (hk : f.kind = .set s) : f.readLength = s.encoding.size := by
  rw [readLength, hk]

theorem isPlain_type {t : TypeDef} (hk : f.kind = .type t) : f.isPlain := by
  rw [isPlain, hk]

theorem isPlain_enum {e : EnumDef} (hk : f.kind = .enum e) : f.isPlain := by
  rw [isPlain, hk]

theorem isPlain_set {s : SetDef} (hk : f.kind = .set s) : f.isPlain := by
  rw [isPlain, hk]

theorem inBlock_plain (hf : f.isPlain) :
    f.InBlock version length start ↔
      (f.since ≤ version → f.presence ≠ .constant →
        start + f.offset + f.readLength ≤ length) := by
  unfold isPlain at hf
  cases hk : f.kind with
  | type t => rw [inBlock_type hk, readLength_type hk]
  | enum e => rw [inBlock_enum hk, readLength_enum hk]
  | set s => rw [inBlock_set hk, readLength_set hk]
  | _ =>
    rw [hk] at hf
    cases hf

theorem extent_le_readLength (hf : f.isPlain) (hp : f.presence ≠ .constant) :
    f.extent ≤ f.readLength := by
  unfold isPlain at hf
  cases hk : f.kind with
  | type t =>
    rw [extent_type hk hp, readLength_type hk]
    exact t.extent_le_readLength f.presence
  | enum e => rw [extent_enum hk hp, readLength_enum hk]
  | set s => rw [extent_set hk hp, readLength_set hk]
  | _ =>
    rw [hk] at hf
    cases hf

end Field

namespace Binding

structure SameStored (b : Binding) (w w' : Window) : Prop where
  read_eq (hf : b.field.isPlain) (hs : b.Stores) (start size : Nat)
    (hle : start + size ≤ b.field.readLength) :
    w'.read (b.offset + start) size = w.read (b.offset + start) size
  stop_lt (hf : b.field.isPlain) (hs : b.Stores) : b.offset + b.field.readLength < UInt64.size

namespace SameStored

variable {b : Binding} {w w' : Window}

theorem read_first (h : b.SameStored w w') (hf : b.field.isPlain) (hs : b.Stores) {size : Nat}
    (hle : size ≤ b.field.readLength) : w'.read b.offset size = w.read b.offset size :=
  h.read_eq hf hs 0 size (by rwa [Nat.zero_add])

theorem value_eq (h : b.SameStored w w') : b.value w' = b.value w := by
  cases hk : b.field.kind with
  | type t =>
    apply value_congr hk
    intro hv hp
    apply h.read_first (Field.isPlain_type hk) ⟨hv, hp⟩
    rw [Field.readLength_type hk]
    exact t.encodedLength_le_readLength b.field.presence
  | _ => simp only [value, typeDef, hk, bind, Except.bind]

theorem scalar_eq (h : b.SameStored w w') (α : Type) [Element α] :
    b.scalar α w' = b.scalar α w := by
  apply Action.except_bind_congr
  intro t ht
  apply Action.except_bind_congr
  intro constant? hc
  obtain ⟨hk, hone, hsize⟩ := scalarType_eq_ok ht
  rcases constant? with _ | ⟨value⟩ | ⟨characters⟩
  · by_cases hv : b.visible = true
    · have hle : Element.size α ≤ b.field.readLength := by
        rw [Field.readLength_type hk]
        apply Nat.le_trans _ (t.extent_le_readLength b.field.presence)
        rw [TypeDef.extent, hone, Nat.mul_one, hsize]
      simp only [if_pos hv, Window.readElement,
        h.read_first (Field.isPlain_type hk) ⟨hv, stored_of_constant? hc⟩ hle]
    · simp only [if_neg hv]
  · rfl
  · rfl

theorem text_eq (h : b.SameStored w w') : b.text w' = b.text w := by
  apply Action.except_bind_congr
  intro capacity hcapacity
  apply Action.except_bind_congr
  intro constant? hc
  obtain ⟨t, hk, hchar, rfl⟩ := textCapacity_eq_ok hcapacity
  rcases constant? with _ | ⟨value⟩ | ⟨characters⟩
  · by_cases hv : b.visible = true
    · have hle : t.length ≤ b.field.readLength := by
        rw [Field.readLength_type hk, ← TypeDef.extent_of_char hchar]
        exact t.extent_le_readLength b.field.presence
      simp only [if_pos hv, h.read_first (Field.isPlain_type hk) ⟨hv, stored_of_constant? hc⟩ hle]
    · simp only [if_neg hv]
  · rfl
  · rfl

theorem array_eq (h : b.SameStored w w') (α : Type) [Element α] : b.array α w' = b.array α w := by
  apply Action.except_bind_congr
  intro t ht
  apply Action.except_bind_congr
  intro constant? hc
  obtain ⟨hk, -⟩ := arrayType_eq_ok ht
  rcases constant? with _ | ⟨value⟩ | ⟨characters⟩
  · by_cases hv : b.visible = true
    · have hle : t.encodedLength ≤ b.field.readLength := by
        rw [Field.readLength_type hk]
        exact t.encodedLength_le_readLength b.field.presence
      simp only [if_pos hv, h.read_first (Field.isPlain_type hk) ⟨hv, stored_of_constant? hc⟩ hle]
    · simp only [if_neg hv]
  · rfl
  · rfl

theorem arrayElement_eq (h : b.SameStored w w') (α : Type) [Element α] (index : Nat) :
    b.arrayElement α index w' = b.arrayElement α index w := by
  apply Action.except_bind_congr
  intro t ht
  apply Action.except_bind_congr
  intro _ hindex
  apply Action.except_bind_congr
  intro constant? hc
  obtain ⟨hk, hsize⟩ := arrayType_eq_ok ht
  cases constant? with
  | some constant => rfl
  | none =>
    by_cases hv : b.visible = true
    · have hlt : index < t.length := by
        unfold checkIndex at hindex
        split at hindex
        next hlt => exact hlt
        next => cases hindex
      have hle : index * Element.size α + Element.size α ≤ b.field.readLength := by
        rw [Field.readLength_type hk]
        apply Nat.le_trans _ (t.extent_le_readLength b.field.presence)
        rw [TypeDef.extent, hsize, Nat.mul_comm _ t.length, ← Nat.succ_mul]
        exact Nat.mul_le_mul_right _ hlt
      have hs : b.Stores := ⟨hv, stored_of_constant? hc⟩
      have hplace : b.offset + index * Element.size α < UInt64.size := by
        have := h.stop_lt (Field.isPlain_type hk) hs
        omega
      simp only [if_pos hv, Window.readElement, wordOf_of_lt hplace,
        h.read_eq (Field.isPlain_type hk) hs _ _ hle]
    · simp only [if_neg hv]

theorem enumRaw_eq (h : b.SameStored w w') : b.enumRaw w' = b.enumRaw w := by
  cases hk : b.field.kind with
  | enum e =>
    apply enumRaw_congr hk
    intro hv hp
    have hle : e.encoding.size ≤ b.field.readLength := Nat.le_of_eq (Field.readLength_enum hk).symm
    rw [Window.readScalar, Window.readScalar, h.read_first (Field.isPlain_enum hk) ⟨hv, hp⟩ hle]
  | _ => simp only [enumRaw, enumDef, hk, bind, Except.bind]

theorem bits_eq (h : b.SameStored w w') : b.bits w' = b.bits w := by
  cases hk : b.field.kind with
  | set s =>
    apply bits_congr hk
    intro hv hp
    exact h.read_first (Field.isPlain_set hk) ⟨hv, hp⟩ (Nat.le_of_eq (Field.readLength_set hk).symm)
  | _ => simp only [bits, setDef, hk, bind, Except.bind]

end SameStored

def InBlock (b : Binding) (version : UInt16) (base length : Nat) : Prop :=
  ∃ start enclosed, b = b.field.bindAt (base + start) enclosed version ∧
    (enclosed → b.field.InBlock version length start)

end Binding

/-- From windows with the same block the action gives the same, and it changes the same part of the
block to the same bytes. -/
def Blockwise {α : Type} (base length : Nat) (x : Action Window α) (w : Window) : Prop :=
  ∃ start part, base ≤ start ∧ start + part.length ≤ base + length ∧
    ∀ w', SameBlock w w' base base length → w'.limit = w.limit →
      (x w').1 = (x w).1 ∧ (x w').2 = w'.written start part

namespace Blockwise

variable {α : Type} {base length : Nat} {x : Action Window α} {w : Window}

theorem of_same (h : ∀ w', SameBlock w w' base base length → w'.limit = w.limit →
    (x w').1 = (x w).1 ∧ (x w').2 = w') : Blockwise base length x w := by
  refine ⟨base, [], Nat.le_refl _, Nat.le_add_right _ _, ?_⟩
  intro w' hw hl
  rw [Window.written, Bytes.overwrite_nil]
  exact h w' hw hl

theorem of_discard [Subsingleton α] (h : Blockwise base length (Functor.discard x) w) :
    Blockwise base length x w := by
  obtain ⟨start, part, hstart, hstop, h⟩ := h
  refine ⟨start, part, hstart, hstop, ?_⟩
  intro w' hw hl
  obtain ⟨hresult, hafter⟩ := h w' hw hl
  rw [Action.discard_apply, Action.discard_apply] at hresult
  rw [Action.discard_apply] at hafter
  refine ⟨?_, hafter⟩
  rcases hx : (x w).1 with e | a <;> rcases hx' : (x w').1 with e' | a' <;> rw [hx, hx'] at hresult
  · exact congrArg Except.error (Except.error.inj hresult)
  · cases hresult
  · cases hresult
  · rw [Subsingleton.elim a' a]

end Blockwise

theorem Binding.blockwise_settle {b : Binding} {base length : Nat} {w : Window}
    {result : Except Error (Option Edit)} (hl : base + length ≤ w.limit)
    (h : ∀ edit, result = .ok (some edit) → base ≤ b.place edit.start ∧
      b.place edit.start + edit.part.length ≤ base + length) :
    Blockwise base length (b.settle result) w := by
  rcases result with e | _ | edit
  · exact .of_same fun w' _ _ => ⟨rfl, rfl⟩
  · exact .of_same fun w' _ _ => ⟨rfl, rfl⟩
  · obtain ⟨hstart, hstop⟩ := h edit rfl
    refine ⟨b.place edit.start, edit.part, hstart, hstop, ?_⟩
    intro w' _ hlimit
    rw [settle_some, Window.write_of_le (Nat.le_trans hstop hl),
      Window.write_of_le (by rw [hlimit]; exact Nat.le_trans hstop hl)]
    exact ⟨rfl, rfl⟩

namespace Field

variable {f : Field} {version : UInt16} {length : Nat} {edit : Edit}

theorem editReset_inside (f : Field) :
    ∀ (start : Nat) (place : Option Nat), f.InBlock version length start →
      f.editReset version place = .ok (some edit) →
      ∃ inner, edit.shift = place.getD 0 + inner ∧
        start + f.offset + inner + edit.part.length ≤ length := by
  induction f using first_member_induction with
  | step f ih =>
    intro start place hin h
    obtain ⟨hsince, hp, h⟩ := editReset_eq_some h
    by_cases hf : f.isPlain = true
    · have hstored : f.presence ≠ .constant := by simp [hp]
      have hle := (inBlock_plain hf).mp hin hsince hstored
      have hread := extent_le_readLength hf hstored
      rw [editAbsent_of_isPlain hf] at h
      cases h
      refine ⟨0, rfl, ?_⟩
      have habsent := length_absent_le hf hstored
      dsimp only
      omega
    · unfold editAbsent at h
      cases hk : f.kind with
      | composite c =>
        rw [hk] at h
        dsimp only at h
        cases hc : c.fields with
        | nil =>
          rw [hc] at h
          cases h
        | cons first rest =>
          rw [hc] at h
          have hfields := (inBlock_composite hk).mp hin hsince
          rw [hc] at hfields
          obtain ⟨inner, hplace, hle⟩ :=
            ih c hk first (by simp [hc]) (start + f.offset) _ hfields.1 h
          refine ⟨first.offset + inner, ?_, by omega⟩
          rw [hplace, Option.getD_some, Nat.add_assoc]
      | type | enum | set => simp [isPlain, hk] at hf
      | group | data =>
        rw [hk] at h
        cases h

end Field

namespace FieldOperation

variable {α : Type} {b : Binding} {version : UInt16} {base length : Nat}
  {stored : Except Error BitSet} {edit : Edit} {operation : FieldOperation α} {w w' : Window}

theorem isPlain_or_reset (h : operation.edit b version stored = .ok (some edit)) :
    b.field.isPlain ∨ b.editOptional version = .ok (some edit) := by
  cases operation with
  | reset => exact .inr h
  | setValue v =>
    obtain ⟨t, hk, -⟩ := Binding.editOf_eq_some h
    exact .inl (Field.isPlain_type hk)
  | setScalar v =>
    obtain ⟨t, hk, -⟩ := Binding.editScalar_eq_some h
    exact .inl (Field.isPlain_type hk)
  | setScalar? v? =>
    cases v? with
    | some v =>
      obtain ⟨t, hk, -⟩ := Binding.editScalar_eq_some h
      exact .inl (Field.isPlain_type hk)
    | none => exact .inr h
  | setText characters =>
    obtain ⟨t, hk, -⟩ := Binding.editCharacters_eq_some h
    exact .inl (Field.isPlain_type hk)
  | setArray values =>
    obtain ⟨t, hk, -⟩ := Binding.editElements_eq_some h
    exact .inl (Field.isPlain_type hk)
  | setArrayElement index v =>
    obtain ⟨t, hk, -⟩ := Binding.editElement_eq_some h
    exact .inl (Field.isPlain_type hk)
  | setEnumRaw raw =>
    obtain ⟨e, hk, -⟩ := Binding.editRaw_eq_some h
    exact .inl (Field.isPlain_enum hk)
  | setEnumName name =>
    obtain ⟨e, raw, hk, -⟩ := Binding.editName_eq_some h
    exact .inl (Field.isPlain_enum hk)
  | setBits set =>
    obtain ⟨s, hk, -⟩ := Binding.editBits_eq_some h
    exact .inl (Field.isPlain_set hk)
  | setBit bit on =>
    obtain ⟨set, -, -, h⟩ := Binding.editBit_eq_some h
    obtain ⟨s, hk, -⟩ := Binding.editBits_eq_some h
    exact .inl (Field.isPlain_set hk)
  | setChoice name on =>
    obtain ⟨s, choice, hk, -⟩ := Binding.editChoice_eq_some h
    exact .inl (Field.isPlain_set hk)
  | _ => cases h

theorem edit_inside (hb : b.InBlock version base length) (hs : operation.Suits b.field)
    (hword : base + length < UInt64.size)
    (h : operation.edit b version stored = .ok (some edit)) :
    base ≤ b.place edit.start ∧
      b.place edit.start + edit.part.length ≤ base + length := by
  obtain ⟨start, enclosed, hbind, hin⟩ := hb
  obtain ⟨hv, hstored⟩ := stored_of_edit h
  have hoffset : b.offset = wordOf (base + start + b.field.offset) :=
    congrArg Binding.offset hbind
  have hvisible : (enclosed && b.field.inVersion version) = true := by
    rw [← hv]
    exact (congrArg Binding.visible hbind).symm
  obtain ⟨henclosed, hsince⟩ := SameBlock.visible_of_and hvisible
  rcases isPlain_or_reset h with hf | hreset
  · have hp : b.field.presence ≠ .constant :=
      hstored.resolve_right fun hset => hset.2 hs
    have hle := (Field.inBlock_plain hf).mp (hin henclosed) hsince hp
    have hread := Field.extent_le_readLength hf hp
    have hwithin := edit_within hf hs h
    rw [wordOf_of_lt (by omega)] at hoffset
    have hplace : b.place edit.start = b.offset + edit.shift :=
      Binding.place_eq (by rw [← Edit.shift]; omega)
    omega
  -- A reset stores at the foot of the first members, which the field reaches in the block.
  · obtain ⟨-, hreset⟩ := Binding.editOptional_eq_some hreset
    obtain ⟨inner, hshift, hle⟩ :=
      Field.editReset_inside b.field start none (hin henclosed) hreset
    rw [wordOf_of_lt (by omega)] at hoffset
    rw [Option.getD_none, Nat.zero_add] at hshift
    have hplace : b.place edit.start = b.offset + edit.shift :=
      Binding.place_eq (by rw [← Edit.shift]; omega)
    omega

end FieldOperation

namespace Binding

variable {b : Binding} {base length : Nat} {w w' : Window}

section

variable (hb : b.InBlock w.version base length) (h : SameBlock w w' base base length)

include hb h

theorem InBlock.offset_of_stores (hf : b.field.isPlain) (hs : b.Stores) :
    ∃ place, b.offset = base + place ∧ place + b.field.readLength ≤ length := by
  obtain ⟨place, enclosed, hbind, hin⟩ := hb
  have hoffset : b.offset = wordOf (base + place + b.field.offset) := congrArg offset hbind
  have hvisible : (enclosed && b.field.inVersion w.version) = true := by
    rw [← hs.visible]
    exact (congrArg visible hbind).symm
  obtain ⟨henclosed, hsince⟩ := SameBlock.visible_of_and hvisible
  have hinside := (Field.inBlock_plain hf).mp (hin henclosed) hsince hs.stored
  have hstop := h.stop_lt
  exact ⟨place + b.field.offset, by rw [hoffset, wordOf_of_lt (by omega), Nat.add_assoc], hinside⟩

theorem InBlock.sameStored : b.SameStored w w' where
  read_eq hf hs start size hle := by
    obtain ⟨place, hoffset, hinside⟩ := hb.offset_of_stores h hf hs
    have hread := h.read_eq (place + start) size (by omega)
    rwa [hoffset, Nat.add_assoc]
  stop_lt hf hs := by
    obtain ⟨place, hoffset, hinside⟩ := hb.offset_of_stores h hf hs
    have hstop := h.stop_lt
    omega

theorem InBlock.present_eq : b.present w' = b.present w := by
  obtain ⟨place, enclosed, hbind, hin⟩ := hb
  have hpresent := h.present_eq hin
  rw [h.version_eq, ← hbind] at hpresent
  exact hpresent

end

end Binding

namespace FieldOperation

variable {α : Type} {b : Binding} {base length : Nat} {operation : FieldOperation α}
  {w w' : Window}

theorem result_of_readsOnly (hr : operation.readsOnly = true)
    (hb : b.InBlock w.version base length) (h : SameBlock w w' base base length) :
    (operation.run b w').1 = (operation.run b w).1 := by
  have hs := hb.sameStored h
  cases operation with
  | present => exact hb.present_eq h
  | value => exact hs.value_eq
  | scalar => exact hs.scalar_eq α
  | scalar? β =>
    have hpresent := hb.present_eq h
    have hscalar := hs.scalar_eq β
    simp only [run, Action.query_apply, Binding.scalar?, hpresent, hscalar]
  | text => exact hs.text_eq
  | textString => simp only [run, Action.query_apply, Binding.textString, hs.text_eq]
  | array β => exact hs.array_eq β
  | arrayElement _ index => exact hs.arrayElement_eq α index
  | enumRaw => exact hs.enumRaw_eq
  | enumName? => simp only [run, Action.query_apply, Binding.enumName?, hs.enumRaw_eq]
  | bits => exact hs.bits_eq
  | testBit bit => simp only [run, Action.query_apply, Binding.testBit, hs.bits_eq]
  | testChoice name =>
    simp only [run, Action.query_apply, Binding.testChoice, Binding.testBit, hs.bits_eq]
  | choices => simp only [run, Action.query_apply, Binding.choices, hs.bits_eq, h.version_eq]
  | scalarNull | scalarLeast | scalarGreatest | textCapacity | arrayLength => rfl
  | reset | setValue | setScalar | setScalar? | setText | setArray | setArrayElement | setEnumRaw
  | setEnumName | setBits | setBit | setChoice => cases hr

theorem subsingleton_of_writes (hr : operation.readsOnly = false) : Subsingleton α := by
  cases operation with
  | reset | setValue | setScalar | setScalar? | setText | setArray | setArrayElement | setEnumRaw
  | setEnumName | setBits | setBit | setChoice => infer_instance
  | _ => cases hr

theorem blockwise_of_readsOnly (hr : operation.readsOnly = true)
    (hb : b.InBlock w.version base length) : Blockwise base length (operation.run b) w := by
  apply Blockwise.of_same
  intro w' h _
  exact ⟨result_of_readsOnly hr hb h, run_of_readsOnly hr⟩

theorem blockwise_of_writes (hr : operation.readsOnly = false)
    (hb : b.InBlock w.version base length) (hs : operation.Suits b.field)
    (hl : base + length ≤ w.limit) : Blockwise base length (operation.run b) w := by
  have := subsingleton_of_writes hr
  apply Blockwise.of_discard
  have hinside : ∀ edit, operation.edit b w.version (b.bits w) = .ok (some edit) →
      base ≤ b.place edit.start ∧ b.place edit.start + edit.part.length ≤ base + length :=
    fun edit h => edit_inside hb hs (w.lt_of_le_limit hl) h
  obtain ⟨start, part, hstart, hstop, hsettle⟩ := Binding.blockwise_settle hl hinside
  refine ⟨start, part, hstart, hstop, ?_⟩
  intro w' h hlimit
  -- An edit depends on the window by its version and by the bits that are stored.
  rw [run_edit hr, run_edit hr, h.version_eq, (hb.sameStored h).bits_eq]
  exact hsettle w' h hlimit

theorem blockwise (hb : b.InBlock w.version base length) (hs : operation.Suits b.field)
    (hl : base + length ≤ w.limit) : Blockwise base length (operation.run b) w := by
  cases hr : operation.readsOnly with
  | true => exact blockwise_of_readsOnly hr hb
  | false => exact blockwise_of_writes hr hb hs hl

end FieldOperation

end SimpleBinary
