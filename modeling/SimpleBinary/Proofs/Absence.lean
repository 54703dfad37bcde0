import SimpleBinary.Proofs.Fixed
import SimpleBinary.Proofs.Tables

namespace SimpleBinary

namespace Field

def constantOr {α : Type} (f : Field) (given : Constant → Option α) (absent : α) :
    Except Error α :=
  if f.presence = .constant then
    match f.constant.bind given with
    | some value => .ok value
    | none => .error (.kindMismatch f.name)
  else .ok absent

end Field

def TypeDef.absent (t : TypeDef) : Value :=
  if t.length = 1 then .scalar t.null
  else if t.isText then .text []
  else .array ⟨t.primitive, []⟩

mutual

/-- What a walk shows of the field where it is not visible; only the choices of a set depend on the
version. -/
def Field.absentReading (version : UInt16) : Field → Reading
  | f@⟨name, _, _, .type t, _, _, _⟩ =>
    .type name (.ok false) (f.constantOr (fun c => some c.toValue) t.absent)
  | f@⟨name, _, _, .enum e, _, _, _⟩ =>
    let raw := f.constantOr Constant.raw? e.null
    .enum name (.ok false) raw (raw.map e.nameOf?)
  | f@⟨name, _, _, .set s, _, _, _⟩ =>
    let bits := f.constantOr (Constant.bits? s.encoding) (.empty s.encoding)
    .set name (.ok false) bits (bits.map fun set =>
      (s.choices.filter (·.since ≤ version)).map fun choice =>
        (choice.name, set.contains choice.bit))
  | ⟨name, _, _, .composite c, _, _, _⟩ =>
    .composite name (.ok false) (absentReadings version c.fields)
  | ⟨name, _, _, .group g, _, _, _⟩ => .group name 0 g.blockLength []
  | ⟨name, _, _, .data _, _, _, _⟩ => .data name (.ok 0) (.ok [])

def absentReadings (version : UInt16) : List Field → List Reading
  | [] => []
  | f :: rest => f.absentReading version :: absentReadings version rest

end

namespace Field

variable {α : Type} {f : Field} {given : Constant → Option α} {absent : α}

theorem constantOr_of_stored (hp : f.presence ≠ .constant) :
    f.constantOr given absent = .ok absent :=
  if_neg hp

theorem constantOr_of_constant (hp : f.presence = .constant) {c : Constant}
    (hc : f.constant = some c) :
    f.constantOr given absent =
      match given c with
      | some value => .ok value
      | none => .error (.kindMismatch f.name) := by
  rw [constantOr, if_pos hp, hc]
  rfl

theorem constantOr_of_none (hp : f.presence = .constant) (hc : f.constant = none) :
    f.constantOr given absent = .error (.kindMismatch f.name) := by
  rw [constantOr, if_pos hp, hc]
  rfl

end Field

namespace Binding

variable {b : Binding} {w : Window}

theorem constant?_of_none (hp : b.field.presence = .constant) (hc : b.field.constant = none) :
    b.constant? = .error b.kindMismatch := by
  rw [constant?, if_pos hp, hc]

theorem present_of_invisible (hv : b.visible = false) : b.present w = .ok false := by
  simp only [present, hv, Bool.false_eq_true, if_false]

theorem value_of_invisible {t : TypeDef} (hk : b.field.kind = .type t) (hv : b.visible = false) :
    b.value w = b.field.constantOr (fun c => some c.toValue) t.absent := by
  by_cases hp : b.field.presence = .constant
  · cases hc : b.field.constant with
    | none =>
      rw [Field.constantOr_of_none hp hc]
      simp only [value, typeDef_eq hk, constant?_of_none hp hc, Action.ok_bind]
      rfl
    | some c => rw [value_of_constant hk hp hc, Field.constantOr_of_constant hp hc]
  · rw [Field.constantOr_of_stored hp]
    simp only [value, typeDef_eq hk, constant?_of_stored hp, Action.ok_bind, hv, Bool.false_eq_true,
      if_false, TypeDef.absent]
    split
    · rfl
    · cases t.isText
      · rfl
      · rfl

theorem enumRaw_of_invisible {e : EnumDef} (hk : b.field.kind = .enum e) (hv : b.visible = false) :
    b.enumRaw w = b.field.constantOr Constant.raw? e.null := by
  by_cases hp : b.field.presence = .constant
  · cases hc : b.field.constant with
    | none =>
      rw [Field.constantOr_of_none hp hc]
      simp only [enumRaw, enumDef_eq hk, constantRaw?, constant?_of_none hp hc, Action.ok_bind]
      rfl
    | some c =>
      rw [Field.constantOr_of_constant hp hc]
      cases hn : c.raw? with
      | some n => rw [enumRaw_of_constant hk hp hc hn]
      | none =>
        simp only [enumRaw, enumDef_eq hk, constantRaw?_of_no_raw hp hc hn, Action.ok_bind]
        rfl
  · rw [Field.constantOr_of_stored hp]
    simp only [enumRaw, enumDef_eq hk, constantRaw?_of_stored hp, Action.ok_bind, hv,
      Bool.false_eq_true, if_false]
    rfl

theorem enumName?_eq {e : EnumDef} (hk : b.field.kind = .enum e) :
    b.enumName? w = (b.enumRaw w).map e.nameOf? := by
  simp only [enumName?, enumDef_eq hk, Action.ok_bind]
  cases b.enumRaw w with
  | ok n => rfl
  | error reason => rfl

theorem bits_of_invisible {s : SetDef} (hk : b.field.kind = .set s) (hv : b.visible = false) :
    b.bits w = b.field.constantOr (Constant.bits? s.encoding) (.empty s.encoding) := by
  by_cases hp : b.field.presence = .constant
  · cases hc : b.field.constant with
    | none =>
      rw [Field.constantOr_of_none hp hc]
      simp only [bits, setDef_eq hk, constant?_of_none hp hc, Action.ok_bind]
      rfl
    | some c =>
      rw [Field.constantOr_of_constant hp hc]
      simp only [bits, setDef_eq hk, constant?_of_constant hp hc, Action.ok_bind]
      cases c with
      | scalar value => rfl
      | text characters => rfl
  · rw [Field.constantOr_of_stored hp]
    simp only [bits, setDef_eq hk, constant?_of_stored hp, Action.ok_bind, hv, Bool.false_eq_true,
      if_false]
    rfl

theorem choices_eq {s : SetDef} (hk : b.field.kind = .set s) :
    b.choices w = (b.bits w).map fun set =>
      (s.choices.filter (·.since ≤ w.version)).map fun choice =>
        (choice.name, set.contains choice.bit) := by
  simp only [choices, setDef_eq hk, Action.ok_bind]
  cases b.bits w with
  | ok set => rfl
  | error reason => rfl

end Binding

namespace Field

variable {f : Field} {version : UInt16}

theorem absentReading_type {t : TypeDef} (hk : f.kind = .type t) :
    f.absentReading version =
      .type f.name (.ok false) (f.constantOr (fun c => some c.toValue) t.absent) := by
  obtain ⟨name, id, offset, kind, presence, constant, since⟩ := f
  cases hk
  rfl

theorem absentReading_enum {e : EnumDef} (hk : f.kind = .enum e) :
    f.absentReading version =
      .enum f.name (.ok false) (f.constantOr Constant.raw? e.null)
        ((f.constantOr Constant.raw? e.null).map e.nameOf?) := by
  obtain ⟨name, id, offset, kind, presence, constant, since⟩ := f
  cases hk
  rfl

theorem absentReading_set {s : SetDef} (hk : f.kind = .set s) :
    f.absentReading version =
      .set f.name (.ok false) (f.constantOr (Constant.bits? s.encoding) (.empty s.encoding))
        ((f.constantOr (Constant.bits? s.encoding) (.empty s.encoding)).map fun set =>
          (s.choices.filter (·.since ≤ version)).map fun choice =>
            (choice.name, set.contains choice.bit)) := by
  obtain ⟨name, id, offset, kind, presence, constant, since⟩ := f
  cases hk
  rfl

theorem absentReading_composite {c : CompositeDef} (hk : f.kind = .composite c) :
    f.absentReading version =
      .composite f.name (.ok false) (absentReadings version c.fields) := by
  obtain ⟨name, id, offset, kind, presence, constant, since⟩ := f
  cases hk
  rfl

theorem absentReading_group {g : GroupDef} (hk : f.kind = .group g) :
    f.absentReading version = .group f.name 0 g.blockLength [] := by
  obtain ⟨name, id, offset, kind, presence, constant, since⟩ := f
  cases hk
  rfl

theorem absentReading_data {d : DataDef} (hk : f.kind = .data d) :
    f.absentReading version = .data f.name (.ok 0) (.ok []) := by
  obtain ⟨name, id, offset, kind, presence, constant, since⟩ := f
  cases hk
  rfl

end Field

theorem DataView.value_of_invisible {d : DataView} {w : Window} (hv : d.visible = false) :
    d.value w = (.ok [], w) := by
  simp only [value, hv, Bool.not_false, if_true, Action.pure_apply]

theorem DataView.length_of_invisible {d : DataView} {w : Window} (hv : d.visible = false) :
    d.length w = .ok 0 := by
  simp only [length, hv, Bool.not_false, if_true]
  rfl

theorem walk_of_invisible :
    TableInduction
      (fun f => ∀ base enclosed w, (enclosed && f.inVersion w.version) = false →
        f.walk base enclosed w = (f.absentReading w.version, w))
      (fun fields => ∀ base w,
        walkFields base false fields w = (absentReadings w.version fields, w)) where
  type f t hk := by
    intro base enclosed w hv
    rw [Field.walk_type hk, Field.absentReading_type hk, Binding.present_of_invisible hv,
      Binding.value_of_invisible hk hv]
    rfl
  enum f e hk := by
    intro base enclosed w hv
    rw [Field.walk_enum hk, Field.absentReading_enum hk, Binding.present_of_invisible hv,
      Binding.enumName?_eq hk, Binding.enumRaw_of_invisible hk hv]
    rfl
  set f s hk := by
    intro base enclosed w hv
    rw [Field.walk_set hk, Field.absentReading_set hk, Binding.present_of_invisible hv,
      Binding.choices_eq hk, Binding.bits_of_invisible hk hv]
    rfl
  composite f c hk ih := by
    intro base enclosed w hv
    rw [Field.walk_composite hk, Field.absentReading_composite hk, Binding.present_of_invisible hv,
      hv, ih]
  -- Where the group is not visible no header is read, and there are no elements to go over.
  group f g hk _ := by
    intro base enclosed w hv
    rw [Field.walk_group_of_ok hk (GroupView.bind_of_invisible hv f g w),
      Field.absentReading_group hk]
    rfl
  data f d hk := by
    intro base enclosed w hv
    rw [Field.walk_data hk, Field.absentReading_data hk, DataView.value_of_invisible hv,
      DataView.length_of_invisible hv]
  nil := fun _ _ => rfl
  cons f rest hf ih := by
    intro base w
    rw [walkFields_cons, hf base false w rfl, ih]
    rfl

end SimpleBinary
