import SimpleBinary.Proofs.Carried

namespace SimpleBinary

/-- Whether a constant is one of its field's kind: a scalar that the primitive carries, a text that
is no longer than the type and of bytes that the primitive carries, a set of bits in the width. -/
def Constant.Fits : Kind → Constant → Prop
  | .type t, scalar s => t.primitive.Carries s
  | .type t, text characters =>
    (utf8 characters).length ≤ t.length ∧
      ∀ byte ∈ utf8 characters, t.primitive.Carries (.uint byte.toUInt64)
  | .set d, scalar s => s.toUInt64.toNat ≤ d.encoding.rawMax
  | _, _ => True

theorem Primitive.carries_zero (p : Primitive) : p.Carries (.uint 0) := by
  cases p <;> decide

theorem Primitive.encode_byte {p : Primitive} (hp : p.size = 1) (byte : UInt8) :
    p.encode (.uint byte.toUInt64) = [byte] := by
  have hf : p.isFloat = false := by
    cases p with
    | float | double => cases hp
    | _ => rfl
  rw [encode, toRaw_uint hf, hp, UInt8.toNat_toUInt64, LittleEndian.encode, LittleEndian.encode,
    UInt8.ofNat_toNat]

theorem Primitive.carries_byte (byte : UInt8) : char.Carries (.uint byte.toUInt64) := by
  have hle : byte.toUInt64.toNat ≤ char.rawMax := by
    rw [UInt8.toNat_toUInt64]
    exact Nat.le_of_lt_succ byte.toNat_lt
  exact carries_of_represents ⟨rfl, hle⟩

theorem Constant.carries_element {c : Constant} {t : TypeDef} (h : c.Fits (.type t)) (i : Nat) :
    t.primitive.Carries (c.element i) := by
  cases c with
  | scalar s => exact h
  | text characters =>
    rw [element, List.getD_eq_getElem?_getD]
    cases hi : (utf8 characters)[i]? with
    | none => exact t.primitive.carries_zero
    | some byte => exact h.2 byte (List.mem_of_getElem? hi)

theorem Constant.matchesValue_iff (c : Constant) (p : Primitive) (v : Value) :
    c.matchesValue p v = true ↔ v.Same p c.toValue := by
  cases c with
  | scalar s =>
    cases v with
    | scalar a => exact Iff.rfl
    | text _ | array _ => exact iff_of_false Bool.false_ne_true id
  | text characters =>
    cases v with
    | text a => exact beq_iff_eq.trans eq_comm
    | scalar _ | array _ => exact iff_of_false Bool.false_ne_true id

section

variable {α β : Type}

theorem forall₂_map_range {R : α → β → Prop} {values : List α} {n : Nat} {f : Nat → β} :
    List.Forall₂ R values ((List.range n).map f) ↔
      values.length = n ∧ ∀ x ∈ values.zipIdx, R x.1 (f x.2) := by
  have hcount : ((List.range n).map f).length = n := by
    rw [List.length_map, List.length_range]
  rw [List.forall₂_iff_get]
  constructor
  · rintro ⟨hlength, h⟩
    refine ⟨hlength.trans hcount, fun ⟨v, i⟩ hx => ?_⟩
    obtain ⟨hi, rfl⟩ : ∃ hi : i < values.length, values[i] = v :=
      List.getElem?_eq_some_iff.mp (List.mem_zipIdx_iff_getElem?.mp hx)
    simpa using h i hi (hlength ▸ hi)
  · rintro ⟨hlength, h⟩
    refine ⟨hlength.trans hcount.symm, fun i hi _ => ?_⟩
    have hx := h (values[i], i) (List.mem_zipIdx_iff_getElem?.mpr (List.getElem?_eq_getElem hi))
    simpa using hx

end

section

variable {α : Type} [Element α]

def TypeDef.filled (t : TypeDef) (values : List α) : List α :=
  values ++ List.replicate (t.length - values.length) (Element.ofScalar (.uint 0))

variable {p : Primitive} [ExactElementOf α p]

theorem decode_byte (p : Primitive) [ExactElementOf α p] (hsize : Element.size α = 1)
    (byte : UInt8) : (Element.decode [byte] : α) = Element.ofScalar (.uint byte.toUInt64) := by
  have hp : p.size = 1 := (ElementOf.size_eq (α := α)).trans hsize
  have hencode : Element.encode (Element.ofScalar (.uint byte.toUInt64) : α) = [byte] := by
    rw [ExactElementOf.encode_ofScalar (p := p), Primitive.encode_byte hp]
  rw [← hencode, FaithfulElement.decode_encode]

theorem elements_of_bytes (p : Primitive) [ExactElementOf α p] (hsize : Element.size α = 1)
    (bytes : Bytes) :
    elements α bytes = bytes.map fun byte => Element.ofScalar (.uint byte.toUInt64) := by
  rw [elements, hsize, Nat.div_one]
  induction bytes with
  | nil => rfl
  | cons byte rest ih =>
    rw [List.length_cons, Bytes.pieces, List.map_cons, List.map_cons, ← decode_byte p hsize]
    exact congrArg _ ih

theorem filled_elements (p : Primitive) [ExactElementOf α p] (hsize : Element.size α = 1)
    {t : TypeDef} {characters : String} (h : (utf8 characters).length ≤ t.length) :
    t.filled (elements α (utf8 characters)) = (List.range t.length).map fun i =>
      Element.ofScalar ((Constant.text characters).element i) := by
  rw [elements_of_bytes p hsize, TypeDef.filled, List.length_map]
  have helement (i : Nat) : (Constant.text characters).element i =
      .uint (((utf8 characters)[i]?).getD 0).toUInt64 := by
    rw [← List.getD_eq_getElem?_getD]
    rfl
  apply List.ext_getElem?
  intro i
  rw [List.getElem?_map]
  by_cases hi : i < (utf8 characters).length
  · rw [List.getElem?_append_left (by rwa [List.length_map]), List.getElem?_map,
      List.getElem?_range (by omega), List.getElem?_eq_getElem hi, Option.map_some,
      Option.map_some, helement, List.getElem?_eq_getElem hi, Option.getD_some]
  · rw [List.getElem?_append_right (by rw [List.length_map]; omega), List.length_map,
      List.getElem?_replicate]
    by_cases hi' : i < t.length
    · rw [if_pos (by omega), List.getElem?_range hi', Option.map_some, helement,
        List.getElem?_eq_none (Nat.le_of_not_lt hi)]
      rfl
    · rw [if_neg (by omega), List.getElem?_eq_none (by rw [List.length_range]; omega)]
      rfl

end

namespace Binding

variable {b : Binding} {w : Window}

/-- A view of a field that takes no more and no less than what it reads, and stores nothing. -/
structure Consistent (b : Binding) (w : Window) {β : Type} (read : Except Error β)
    (same : β → β → Prop) (write : β → Action Window Unit) : Prop where
  taken : ∀ x, read = .ok x → ∀ v, same v x → write v w = (.ok ⟨⟩, w)
  refused : ∀ x, read = .ok x → ∀ v, ¬ same v x → write v w = (.error b.constantMismatch, w)
  back : ∀ x, read = .ok x → write x w = (.ok ⟨⟩, w)

theorem Consistent.of_check {β : Type} {read : Except Error β} {same : β → β → Prop}
    {write : β → Action Window Unit} (takes : β → Bool) (hself : ∀ x, same x x)
    (hwrite : ∀ v, write v w = if takes v then (.ok ⟨⟩, w) else (.error b.constantMismatch, w))
    (htakes : ∀ x, read = .ok x → ∀ v, takes v = true ↔ same v x) :
    b.Consistent w read same write where
  taken x hx v hv := by rw [hwrite, if_pos ((htakes x hx v).mpr hv)]
  refused x hx v hv := by rw [hwrite, if_neg fun h => hv ((htakes x hx v).mp h)]
  back x hx := by rw [hwrite, if_pos ((htakes x hx x).mpr (hself x))]

theorem Consistent.of_error {β : Type} {e : Error} {same : β → β → Prop}
    {write : β → Action Window Unit} : b.Consistent w (.error e) same write :=
  ⟨nofun, nofun, nofun⟩

theorem check_apply {differs : Prop} [Decidable differs] {takes : Bool}
    (h : takes = true ↔ ¬ differs) :
    ((if differs then throw b.constantMismatch else pure ⟨⟩ : Action Window Unit) w) =
      if takes then (.ok ⟨⟩, w) else (.error b.constantMismatch, w) := by
  by_cases hd : differs
  · rw [if_pos hd, if_neg fun ht => h.mp ht hd]
    rfl
  · rw [if_neg hd, if_pos (h.mpr hd)]
    rfl

section

variable {c : Constant} (hp : b.field.presence = .constant) (hc : b.field.constant = some c)

include hp hc

section

variable {t : TypeDef} (hk : b.field.kind = .type t)

include hk

theorem consistent_value : b.Consistent w (b.value w) (Value.Same t.primitive) b.setValue := by
  refine .of_check (c.matchesValue t.primitive) (Value.same_self t.primitive) ?_ ?_
  · intro v
    simp only [setValue, Action.bind_apply, Action.lift_apply, typeDef_eq hk,
      constant?_of_constant hp hc]
    exact check_apply (by simp)
  · intro x hx v
    rw [value_of_constant hk hp hc] at hx
    cases hx
    exact c.matchesValue_iff t.primitive v

theorem consistent_text : b.Consistent w (b.text w) Eq b.setText := by
  by_cases hchar : t.primitive = .char
  · have hcapacity := textCapacity_eq hk hchar
    refine .of_check (fun v => c.matchesValue .char (.text v)) (fun _ => rfl) ?_ ?_
    · intro v
      simp only [setText, Action.bind_apply, Action.lift_apply, hcapacity,
        constant?_of_constant hp hc]
      exact check_apply (by simp)
    · intro x hx v
      simp only [text, hcapacity, constant?_of_constant hp hc, Action.ok_bind] at hx
      cases c with
      | scalar s => cases hx
      | text characters =>
        cases hx
        exact (Constant.text characters).matchesValue_iff .char (.text v)
  · have hread : b.text w = .error b.kindMismatch := by
      simp only [text, textCapacity, typeDef_eq hk, Action.ok_bind, ne_eq, hchar,
        not_false_eq_true, if_true]
      rfl
    rw [hread]
    exact .of_error

variable (hfits : c.Fits (.type t)) {α : Type} [Element α] [ExactElementOf α t.primitive]

include hfits

theorem consistent_scalar : b.Consistent w (b.scalar α w)
    (fun v x => t.primitive.equal (Element.toScalar v) (Element.toScalar x) = true)
    b.setScalar := by
  by_cases hl : t.length = 1
  · have htype := scalarType_eq hk hl (ElementOf.size_eq (α := α))
    refine .of_check (fun v => c.matchesValue t.primitive (.scalar (Element.toScalar v)))
      (fun x => t.primitive.equal_self _) ?_ ?_
    · intro v
      simp only [setScalar, Action.bind_apply, Action.lift_apply, htype,
        constant?_of_constant hp hc]
      exact check_apply (by simp)
    · intro x hx v
      simp only [scalar, htype, constant?_of_constant hp hc, Action.ok_bind] at hx
      cases c with
      | text characters => cases hx
      | scalar s =>
        cases hx
        rw [Constant.matchesValue_iff, ← Primitive.Carries.equal_cast hfits]
        exact Iff.rfl
  · have hread : b.scalar α w = .error b.kindMismatch := by
      simp only [scalar, scalarType, typeDef_eq hk, Action.ok_bind, ne_eq, hl, not_false_eq_true,
        true_or, if_true]
      rfl
    rw [hread]
    exact .of_error

theorem consistent_array : b.Consistent w ((b.array α w).map t.filled)
    (List.Forall₂ fun v x => t.primitive.equal (Element.toScalar v) (Element.toScalar x) = true)
    b.setArray := by
  have htype := arrayType_eq hk (ElementOf.size_eq (α := α))
  refine .of_check (fun values => decide (values.length = t.length) &&
    values.zipIdx.all fun x => t.primitive.equal (Element.toScalar x.1) (c.element x.2))
    (fun values => List.forall₂_same.mpr fun _ _ => t.primitive.equal_self _) ?_ ?_
  · intro values
    simp only [setArray, Action.bind_apply, Action.lift_apply, htype,
      constant?_of_constant hp hc]
    exact check_apply (by simp)
  · intro x hx values
    simp only [array, htype, constant?_of_constant hp hc, Action.ok_bind] at hx
    cases c with
    | scalar s => cases hx
    | text characters =>
      by_cases hsize : Element.size α = 1
      · simp only [ne_eq, hsize, not_true_eq_false, if_false] at hx
        cases hx
        rw [filled_elements t.primitive hsize hfits.1, forall₂_map_range, Bool.and_eq_true,
          decide_eq_true_iff, List.all_eq_true]
        apply and_congr_right
        intro _
        simp only [← (Constant.carries_element hfits _).equal_cast (α := α)]
      · simp only [ne_eq, hsize, not_false_eq_true, if_true] at hx
        cases hx

theorem consistent_arrayElement (hv : b.visible = true) {i : Nat} (hi : i < t.length) :
    b.Consistent w (b.arrayElement α i w)
      (fun v x => t.primitive.equal (Element.toScalar v) (Element.toScalar x) = true)
      (b.setArrayElement i) := by
  have htype := arrayType_eq hk (ElementOf.size_eq (α := α))
  refine .of_check (fun v => t.primitive.equal (Element.toScalar v) (c.element i))
    (fun x => t.primitive.equal_self _) ?_ ?_
  · intro v
    simp only [setArrayElement, Action.bind_apply, Action.lift_apply, htype,
      requireVisible_of_visible hv, checkIndex, if_pos hi, constant?_of_constant hp hc]
    exact check_apply (by simp)
  · intro x hx v
    simp only [arrayElement, htype, checkIndex, if_pos hi, constant?_of_constant hp hc,
      Action.ok_bind] at hx
    cases hx
    rw [← (c.carries_element hfits i).equal_cast]

end

theorem consistent_enumRaw : b.Consistent w (b.enumRaw w) Eq b.setEnumRaw := by
  cases hdef : b.enumDef with
  | error e =>
    have hread : b.enumRaw w = .error e := by
      simp only [enumRaw, hdef]
      rfl
    rw [hread]
    exact .of_error
  | ok e =>
    cases hn : c.raw? with
    | none =>
      have hread : b.enumRaw w = .error b.kindMismatch := by
        simp only [enumRaw, hdef, constantRaw?_of_no_raw hp hc hn, Action.ok_bind]
        rfl
      rw [hread]
      exact .of_error
    | some n =>
      have hread : b.enumRaw w = .ok n := by
        simp only [enumRaw, hdef, constantRaw?_of_constant hp hc hn, Action.ok_bind]
        rfl
      refine .of_check (fun raw => n == raw) (fun _ => rfl) ?_ ?_
      · intro raw
        simp only [setEnumRaw, Action.bind_apply, Action.lift_apply, hdef,
          constantRaw?_of_constant hp hc hn]
        exact check_apply (by simp)
      · intro x hx raw
        rw [hread] at hx
        cases hx
        exact beq_iff_eq.trans eq_comm

theorem consistent_bits {s : SetDef} (hk : b.field.kind = .set s) (hfits : c.Fits (.set s)) :
    b.Consistent w (b.bits w) (fun set x => set.bits = x.bits) b.setBits := by
  cases c with
  | text characters =>
    have hread : b.bits w = .error b.kindMismatch := by
      simp only [bits, setDef_eq hk, constant?_of_constant hp hc, Action.ok_bind]
      rfl
    rw [hread]
    exact .of_error
  | scalar value =>
    refine .of_check (fun set => value.toUInt64.toNat == set.bits) (fun _ => rfl) ?_ ?_
    · intro set
      simp only [setBits, Action.bind_apply, Action.lift_apply, setDef_eq hk,
        constant?_of_constant hp hc]
      exact check_apply (by simp)
    · intro x hx set
      simp only [bits, setDef_eq hk, constant?_of_constant hp hc, Action.ok_bind] at hx
      cases hx
      have hlt : value.toUInt64.toNat < 2 ^ s.encoding.width := s.encoding.le_rawMax_iff.mp hfits
      have hbits : (BitSet.ofBits value.toUInt64.toNat s.encoding).bits = value.toUInt64.toNat :=
        Nat.mod_eq_of_lt hlt
      rw [hbits, beq_iff_eq, eq_comm]

end

structure ConstantViews (b : Binding) (w : Window) (t : TypeDef) (α : Type) [Element α] :
    Prop where
  value : b.Consistent w (b.value w) (Value.Same t.primitive) b.setValue
  scalar : b.Consistent w (b.scalar α w)
    (fun v x => t.primitive.equal (Element.toScalar v) (Element.toScalar x) = true) b.setScalar
  text : b.Consistent w (b.text w) Eq b.setText
  array : b.Consistent w ((b.array α w).map t.filled)
    (List.Forall₂ fun v x => t.primitive.equal (Element.toScalar v) (Element.toScalar x) = true)
    b.setArray
  arrayElement : b.visible = true → ∀ i < t.length, b.Consistent w (b.arrayElement α i w)
    (fun v x => t.primitive.equal (Element.toScalar v) (Element.toScalar x) = true)
    (b.setArrayElement i)

/-- Constants are read and taken alike by every view of their fields, in every version. -/
theorem constant_views_consistent {c : Constant} (hp : b.field.presence = .constant)
    (hc : b.field.constant = some c) (hfits : c.Fits b.field.kind) (w : Window) :
    (∀ t, b.field.kind = .type t → b.ConstantViews w t t.primitive.Native) ∧
      b.Consistent w (b.enumRaw w) Eq b.setEnumRaw ∧
      ∀ s, b.field.kind = .set s →
        b.Consistent w (b.bits w) (fun set x => set.bits = x.bits) b.setBits := by
  refine ⟨?_, consistent_enumRaw hp hc, ?_⟩
  · intro t hk
    rw [hk] at hfits
    exact ⟨consistent_value hp hc hk, consistent_scalar hp hc hk hfits, consistent_text hp hc hk,
      consistent_array hp hc hk hfits, fun hv _ => consistent_arrayElement hp hc hk hfits hv⟩
  · intro s hk
    rw [hk] at hfits
    exact consistent_bits hp hc hk hfits

def venueField : Field :=
  ⟨"venue", 1, 0, .type (.plain "venue" .char 3), .constant, some (.text "ab"), 0⟩

theorem constant_views_consistent_venue :
    (venueField.bindAt 0 true 0).field.presence = .constant ∧
      Constant.Fits venueField.kind (.text "ab") ∧
      (venueField.bindAt 0 true 0).ConstantViews ⟨[], 0, 0, 0, by decide⟩
        (.plain "venue" .char 3) UInt8 := by
  have hp : (venueField.bindAt 0 true 0).field.presence = .constant := rfl
  have hfits : Constant.Fits venueField.kind (.text "ab") :=
    show _ ∧ _ from ⟨by decide, fun byte _ => Primitive.carries_byte byte⟩
  exact ⟨hp, hfits, (constant_views_consistent (b := venueField.bindAt 0 true 0) hp rfl hfits
    ⟨[], 0, 0, 0, by decide⟩).1 _ rfl⟩

theorem short_text_not_taken_back :
    (venueField.bindAt 0 true 0).array UInt8 ⟨[], 0, 0, 0, by decide⟩ = .ok [97, 98] ∧
      (venueField.bindAt 0 true 0).setArray [(97 : UInt8), 98] ⟨[], 0, 0, 0, by decide⟩ =
        (.error (.constantMismatch "venue"), ⟨[], 0, 0, 0, by decide⟩) ∧
      (venueField.bindAt 0 true 0).setArray [(97 : UInt8), 98, 0] ⟨[], 0, 0, 0, by decide⟩ =
        (.ok ⟨⟩, ⟨[], 0, 0, 0, by decide⟩) :=
  ⟨rfl, rfl, rfl⟩

end Binding

end SimpleBinary
