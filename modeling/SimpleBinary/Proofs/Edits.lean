import SimpleBinary.Proofs.Keeping
import SimpleBinary.Proofs.Locality

/-!
Every write to a field is one edit: from the schema, the version and, for a bit of a set, the bits
that are stored, it is known before what part is to be stored and where in the field, if the write
is not refused. All that is left then is to see whether the place is in the window.
-/

namespace SimpleBinary

/-- A part to be stored in a field, at its own place or behind so many of its bytes. Only what is
behind them has a place that is a sum and may wrap. -/
structure Edit where
  start : Option Nat
  part : Bytes

def Edit.shift (edit : Edit) : Nat :=
  edit.start.getD 0

namespace TypeDef

theorem size_dvd_encodedLength (t : TypeDef) : t.primitive.size ∣ t.encodedLength :=
  (Nat.dvd_mod_iff t.primitive.size_dvd).mpr (Nat.dvd_mul_right _ _)

theorem encodedLength_div_mul (t : TypeDef) :
    t.encodedLength / t.primitive.size * t.primitive.size = t.encodedLength :=
  Nat.div_mul_cancel t.size_dvd_encodedLength

theorem encodedLength_div_le (t : TypeDef) : t.encodedLength / t.primitive.size ≤ t.length :=
  Nat.div_le_of_le_mul (wordOf_le t.extent)

end TypeDef

namespace Field

def absent (f : Field) : Bytes :=
  match f.kind with
  | .type t =>
    (List.replicate (t.encodedLength / t.primitive.size) (t.primitive.encode t.null)).flatten
  | .enum e => e.encoding.encode (.uint e.null)
  | .set s => s.encoding.encode (.uint 0)
  | .composite _ | .group _ | .data _ => []

def editReset (version : UInt16) : Field → Option Nat → Except Error (Option Edit)
  | ⟨name, id, offset, kind, presence, constant, since⟩, start =>
    if version < since then .error (.fieldNotInVersion name version)
    else if presence ≠ .optional then .error (.resetNotAllowed name)
    else match kind with
      | .type t => .ok (some ⟨start, absent ⟨name, id, offset, .type t, presence, constant, since⟩⟩)
      | .enum e => .ok (some ⟨start, absent ⟨name, id, offset, .enum e, presence, constant, since⟩⟩)
      | .set s => .ok (some ⟨start, absent ⟨name, id, offset, .set s, presence, constant, since⟩⟩)
      | .composite ⟨_, first :: _, _⟩ =>
        editReset version first (some (start.getD 0 + first.offset))
      | .composite ⟨_, [], _⟩ => .ok none
      | .group _ | .data _ => .error (.resetNotAllowed name)

def editAbsent (version : UInt16) (f : Field) (start : Option Nat) : Except Error (Option Edit) :=
  match f.kind with
  | .type _ | .enum _ | .set _ => .ok (some ⟨start, f.absent⟩)
  | .composite c =>
    match c.fields with
    | first :: _ => first.editReset version (some (start.getD 0 + first.offset))
    | [] => .ok none
  | .group _ | .data _ => .error (.resetNotAllowed f.name)

theorem editReset_eq (version : UInt16) (f : Field) (start : Option Nat) :
    f.editReset version start =
      if version < f.since then .error (f.notInVersion version)
      else if f.presence ≠ .optional then .error (.resetNotAllowed f.name)
      else f.editAbsent version start := by
  obtain ⟨name, id, offset, kind, presence, constant, since⟩ := f
  cases kind with
  | composite c =>
    obtain ⟨cname, fields, length⟩ := c
    cases fields <;> rfl
  | _ => rfl

end Field

namespace Binding

def place (b : Binding) : Option Nat → Nat
  | none => b.offset
  | some start => wordOf (b.offset + start)

theorem place_eq {b : Binding} {start : Option Nat} (h : b.offset + start.getD 0 < UInt64.size) :
    b.place start = b.offset + start.getD 0 := by
  cases start with
  | none => rfl
  | some start => exact wordOf_of_lt h

def settle (b : Binding) : Except Error (Option Edit) → Action Window Unit
  | .ok (some edit) => Window.write (b.place edit.start) edit.part
  | .ok none => return
  | .error e => throw e

def editVisible (b : Binding) (version : UInt16) (edit : Except Error Edit) :
    Except Error (Option Edit) :=
  if b.visible then edit.map some else .error (b.field.notInVersion version)

def editNothing (b : Binding) (differs : Prop) [Decidable differs] : Except Error (Option Edit) :=
  if differs then .error b.constantMismatch else .ok none

def editStored (b : Binding) (version : UInt16) (differs : Constant → Prop) [DecidablePred differs]
    (edit : Except Error Edit) : Except Error (Option Edit) := do
  match ← b.constant? with
  | some constant => b.editNothing (differs constant)
  | none => b.editVisible version edit

def editText (b : Binding) (capacity : Nat) (characters : Bytes) : Except Error Edit :=
  if capacity < characters.length then
    .error (.lengthMismatch b.field.name capacity characters.length)
  else .ok ⟨none, characters.padded capacity⟩

def editValue (b : Binding) (t : TypeDef) : Value → Except Error Edit
  | .scalar scalar =>
    if t.length ≠ 1 then .error b.kindMismatch else .ok ⟨none, t.primitive.encode scalar⟩
  | .text characters =>
    if t.primitive ≠ .char then .error b.kindMismatch else b.editText t.length characters
  | .array elements =>
    if elements.primitive ≠ t.primitive then .error b.kindMismatch
    else if elements.length ≠ t.length then
      .error (.lengthMismatch b.field.name t.length elements.length)
    else .ok ⟨none, elements.bytes⟩

def editOf (b : Binding) (version : UInt16) (value : Value) : Except Error (Option Edit) := do
  let t ← b.typeDef
  b.editStored version (fun constant => !constant.matchesValue t.primitive value)
    (b.editValue t value)

def editScalar {α : Type} [Element α] (b : Binding) (version : UInt16) (value : α) :
    Except Error (Option Edit) := do
  let t ← b.scalarType α
  b.editStored version
    (fun constant => !constant.matchesValue t.primitive (.scalar (Element.toScalar value)))
    (.ok ⟨none, Element.encode value⟩)

def editCharacters (b : Binding) (version : UInt16) (characters : Bytes) :
    Except Error (Option Edit) := do
  let capacity ← b.textCapacity
  b.editStored version (fun constant => !constant.matchesValue .char (.text characters))
    (b.editText capacity characters)

def editElements {α : Type} [Element α] (b : Binding) (version : UInt16) (values : List α) :
    Except Error (Option Edit) := do
  let t ← b.arrayType α
  b.editStored version
    (fun constant => values.length ≠ t.length ∨ !(values.zipIdx.all fun (value, index) =>
      t.primitive.equal (Element.toScalar value) (constant.element index)))
    (if values.length ≠ t.length then
      .error (.lengthMismatch b.field.name t.length values.length)
    else .ok ⟨none, elementBytes values⟩)

def editElement {α : Type} [Element α] (b : Binding) (version : UInt16) (index : Nat) (value : α) :
    Except Error (Option Edit) := do
  let t ← b.arrayType α
  if b.visible then
    b.checkIndex t index
    b.editStored version
      (fun constant => !t.primitive.equal (Element.toScalar value) (constant.element index))
      (.ok ⟨some (index * Element.size α), Element.encode value⟩)
  else throw (b.field.notInVersion version)

def editRaw (b : Binding) (version : UInt16) (raw : UInt64) : Except Error (Option Edit) := do
  let e ← b.enumDef
  match ← b.constantRaw? with
  | some expected => b.editNothing (expected ≠ raw)
  | none => b.editVisible version (.ok ⟨none, e.encoding.encode (.uint raw)⟩)

def editName (b : Binding) (version : UInt16) (name : String) : Except Error (Option Edit) := do
  let e ← b.enumDef
  match e.valueOf? name with
  | some raw => b.editRaw version raw
  | none => throw (.unknownEnumName e.name)

def editBits (b : Binding) (version : UInt16) (set : BitSet) : Except Error (Option Edit) := do
  let s ← b.setDef
  match ← b.constant? with
  | some (.scalar value) => b.editNothing (value.toUInt64.toNat ≠ set.bits)
  | _ => b.editVisible version (.ok ⟨none, (BitSet.ofBits set.bits s.encoding).toBytes⟩)

def editBit (b : Binding) (version : UInt16) (stored : Except Error BitSet) (bit : Nat)
    (on : Bool) : Except Error (Option Edit) := do
  b.editBits version (← (← stored).with? bit on)

def editChoice (b : Binding) (version : UInt16) (stored : Except Error BitSet) (name : String)
    (on : Bool) : Except Error (Option Edit) := do
  b.editBit version stored (← b.choiceNamed name).bit on

def editOptional (b : Binding) (version : UInt16) : Except Error (Option Edit) :=
  if b.visible then b.field.editReset version none else .error (b.field.notInVersion version)

variable {α : Type} {b : Binding} {w : Window}

@[simp] theorem settle_error (e : Error) : b.settle (.error e) w = (.error e, w) := rfl

@[simp] theorem settle_none : b.settle (.ok none) w = (.ok ⟨⟩, w) := rfl

@[simp] theorem settle_some (edit : Edit) :
    b.settle (.ok (some edit)) = Window.write (b.place edit.start) edit.part := rfl

theorem settle_keeps {result : Except Error (Option Edit)} (h : ∀ edit, result ≠ .ok (some edit)) :
    (b.settle result w).2 = w := by
  rcases result with e | _ | edit
  · rfl
  · rfl
  · exact absurd rfl (h edit)

theorem lift_bind_settle {x : Except Error α} {f : α → Action Window Unit}
    {g : α → Except Error (Option Edit)} (h : ∀ a, x = .ok a → f a w = b.settle (g a) w) :
    (liftM x >>= f) w = b.settle (x >>= g) w := by
  cases x with
  | ok a => exact h a rfl
  | error e => rfl

theorem requireVisible_bind {store : Action Window Unit} {edit : Except Error (Option Edit)}
    (h : b.visible = true → store w = b.settle edit w) :
    (b.requireVisible >>= fun _ => store) w =
      b.settle (if b.visible then edit else .error (b.field.notInVersion w.version)) w := by
  unfold requireVisible
  cases hv : b.visible with
  | true => exact h hv
  | false => rfl

theorem settle_nothing (differs : Prop) [Decidable differs] :
    (do if differs then throw b.constantMismatch : Action Window Unit) w =
      b.settle (b.editNothing differs) w := by
  unfold editNothing
  split <;> rfl

theorem writeText_eq (capacity : Nat) (characters : Bytes) :
    b.writeText capacity characters w = b.settle ((b.editText capacity characters).map some) w := by
  unfold editText
  by_cases hc : capacity < characters.length
  · rw [writeText, if_pos hc, if_pos hc]
    rfl
  · have hlength : (characters.padded capacity).length = capacity :=
      Bytes.length_padded (Nat.le_of_not_lt hc)
    rw [if_neg hc, Except.map, settle_some, place]
    by_cases hw : b.offset + capacity ≤ w.limit
    · rw [writeText_of_le (Nat.le_of_not_lt hc) hw, Window.write_of_le (by rwa [hlength])]
    · have hlt : w.limit < b.offset + capacity := Nat.lt_of_not_le hw
      simp only [writeText, if_neg hc, Action.bind_apply, Action.get_apply, Action.discard_apply,
        Action.lift_apply, Window.check_of_lt hlt, Except.map]
      rw [Window.write_of_lt (by rwa [hlength]), hlength]

theorem setValue_eq (value : Value) :
    b.setValue value w = b.settle (b.editOf w.version value) w := by
  unfold setValue
  apply lift_bind_settle
  intro t _
  apply lift_bind_settle
  intro constant? _
  cases constant? with
  | some constant => exact settle_nothing _
  | none =>
    apply requireVisible_bind
    intro _
    unfold editValue
    cases value with
    | scalar scalar =>
      dsimp only
      split <;> rfl
    | text characters =>
      dsimp only
      split
      · rfl
      · exact writeText_eq _ _
    | array elements =>
      dsimp only
      split
      · rfl
      split <;> rfl

theorem setScalar_eq [Element α] (value : α) :
    b.setScalar value w = b.settle (b.editScalar w.version value) w := by
  unfold setScalar
  apply lift_bind_settle
  intro t _
  apply lift_bind_settle
  intro constant? _
  cases constant? with
  | some constant => exact settle_nothing _
  | none => exact requireVisible_bind fun _ => rfl

theorem setText_eq (characters : Bytes) :
    b.setText characters w = b.settle (b.editCharacters w.version characters) w := by
  unfold setText
  apply lift_bind_settle
  intro capacity _
  apply lift_bind_settle
  intro constant? _
  cases constant? with
  | some constant => exact settle_nothing _
  | none => exact requireVisible_bind fun _ => writeText_eq _ _

theorem setArray_eq [Element α] (values : List α) :
    b.setArray values w = b.settle (b.editElements w.version values) w := by
  unfold setArray
  apply lift_bind_settle
  intro t _
  apply lift_bind_settle
  intro constant? _
  cases constant? with
  | some constant => exact settle_nothing _
  | none =>
    apply requireVisible_bind
    intro _
    split <;> rfl

theorem setArrayElement_eq [Element α] (index : Nat) (value : α) :
    b.setArrayElement index value w = b.settle (b.editElement w.version index value) w := by
  unfold setArrayElement
  apply lift_bind_settle
  intro t _
  apply requireVisible_bind
  intro hv
  apply lift_bind_settle
  intro _ _
  apply lift_bind_settle
  intro constant? _
  cases constant? with
  | some constant => exact settle_nothing _
  | none => rw [editVisible, if_pos hv]; rfl

theorem setEnumRaw_eq (raw : UInt64) :
    b.setEnumRaw raw w = b.settle (b.editRaw w.version raw) w := by
  unfold setEnumRaw
  apply lift_bind_settle
  intro e _
  apply lift_bind_settle
  intro raw? _
  cases raw? with
  | some expected => exact settle_nothing _
  | none => exact requireVisible_bind fun _ => rfl

theorem setEnumName_eq (name : String) :
    b.setEnumName name w = b.settle (b.editName w.version name) w := by
  unfold setEnumName
  apply lift_bind_settle
  intro e _
  cases e.valueOf? name with
  | some raw => exact setEnumRaw_eq raw
  | none => rfl

theorem setBits_eq (set : BitSet) :
    b.setBits set w = b.settle (b.editBits w.version set) w := by
  unfold setBits
  apply lift_bind_settle
  intro s _
  apply lift_bind_settle
  intro constant? _
  rcases constant? with _ | ⟨value⟩ | ⟨characters⟩
  · exact requireVisible_bind fun _ => rfl
  · exact settle_nothing _
  · exact requireVisible_bind fun _ => rfl

theorem setBit_eq (bit : Nat) (on : Bool) :
    b.setBit bit on w = b.settle (b.editBit w.version (b.bits w) bit on) w := by
  unfold setBit editBit
  cases hbits : b.bits w with
  | error e => rw [Action.bind_of_error (by rw [Action.query_apply, hbits])]; rfl
  | ok set =>
    rw [Action.bind_of_ok (by rw [Action.query_apply, hbits])]
    apply lift_bind_settle
    intro changed _
    exact setBits_eq changed

theorem setChoice_eq (name : String) (on : Bool) :
    b.setChoice name on w = b.settle (b.editChoice w.version (b.bits w) name on) w := by
  unfold setChoice
  apply lift_bind_settle
  intro choice _
  exact setBit_eq choice.bit on

theorem place_first (b : Binding) (start : Option Nat) (offset : Nat) :
    wordOf (b.place start + offset) = b.place (some (start.getD 0 + offset)) := by
  cases start with
  | none => rw [place, place, Option.getD_none, Nat.zero_add]
  | some start => rw [place, place, wordOf_wordOf_add, Option.getD_some, Nat.add_assoc]

theorem storeAbsent_settle {f : Field} {start : Option Nat} (hf : ∀ c, f.kind = .composite c →
    ∀ first ∈ c.fields.head?, first.resetAt (b.place (some (start.getD 0 + first.offset))) w =
      b.settle (first.editReset w.version (some (start.getD 0 + first.offset))) w) :
    f.storeAbsent (b.place start) w = b.settle (f.editAbsent w.version start) w := by
  unfold Field.storeAbsent Field.editAbsent Field.absent
  cases hk : f.kind with
  | type t =>
    dsimp only
    have hlength : (List.replicate (t.encodedLength / t.primitive.size)
        (t.primitive.encode t.null)).flatten.length = t.encodedLength := by
      simp [t.encodedLength_div_mul]
    by_cases hw : b.place start + t.encodedLength ≤ w.limit
    · simp only [Action.bind_apply, Action.get_apply, Action.discard_apply, Action.lift_apply,
        Window.check_of_le hw, Except.map]
      rfl
    · have hlt : w.limit < b.place start + t.encodedLength := Nat.lt_of_not_le hw
      simp only [Action.bind_apply, Action.get_apply, Action.discard_apply, Action.lift_apply,
        Window.check_of_lt hlt, Except.map, settle_some]
      rw [Window.write_of_lt (by rwa [hlength]), hlength]
  | composite c =>
    dsimp only
    cases hc : c.fields with
    | nil => rfl
    | cons first rest =>
      dsimp only
      rw [place_first]
      exact hf c hk first (by simp [hc])
  | _ => rfl

theorem resetAt_settle (f : Field) :
    ∀ start, f.resetAt (b.place start) w = b.settle (f.editReset w.version start) w := by
  induction f using Field.first_member_induction with
  | step f ih =>
    intro start
    rw [Field.resetAt_eq, Field.editReset_eq]
    unfold Field.requireOptional
    by_cases hv : w.version < f.since
    · simp only [Action.bind_apply, Action.get_apply, if_pos hv, Action.throw_apply, settle_error]
    by_cases hp : f.presence ≠ .optional
    · simp only [Action.bind_apply, Action.get_apply, if_neg hv, if_pos hp, Action.throw_apply,
        settle_error]
    simp only [Action.bind_apply, Action.get_apply, if_neg hv, if_neg hp, Action.pure_apply]
    exact storeAbsent_settle fun c hk first hc =>
      ih c hk first hc (some (start.getD 0 + first.offset))

theorem reset_eq : b.reset w = b.settle (b.editOptional w.version) w := by
  unfold reset
  apply requireVisible_bind
  intro _
  exact resetAt_settle b.field none

end Binding

section

variable {α : Type} {b : Binding} {w w' : Window}

/-- What an operation does to the bytes of the field. -/
def FieldOperation.edit (b : Binding) (version : UInt16) (stored : Except Error BitSet) :
    FieldOperation α → Except Error (Option Edit)
  | .reset => b.editOptional version
  | .setValue v => b.editOf version v
  | @setScalar _ _ v => b.editScalar version v
  | @setScalar? _ _ (some v) => b.editScalar version v
  | @setScalar? _ _ none => b.editOptional version
  | .setText characters => b.editCharacters version characters
  | @setArray _ _ values => b.editElements version values
  | @setArrayElement _ _ index v => b.editElement version index v
  | .setEnumRaw raw => b.editRaw version raw
  | .setEnumName name => b.editName version name
  | .setBits set => b.editBits version set
  | .setBit bit on => b.editBit version stored bit on
  | .setChoice name on => b.editChoice version stored name on
  | _ => .ok none

theorem FieldOperation.run_edit {operation : FieldOperation α} (h : operation.readsOnly = false) :
    Functor.discard (operation.run b) w =
      b.settle (operation.edit b w.version (b.bits w)) w := by
  have hunit (x : Action Window Unit) : Functor.discard x w = x w := by
    rw [Action.discard_apply]
    rcases x w with ⟨_ | _, _⟩ <;> rfl
  cases operation with
  | reset => exact (hunit _).trans Binding.reset_eq
  | setValue value => exact (hunit _).trans (Binding.setValue_eq value)
  | setScalar value => exact (hunit _).trans (Binding.setScalar_eq value)
  | setScalar? value? =>
    cases value? with
    | some value => exact (hunit _).trans (Binding.setScalar_eq value)
    | none => exact (hunit _).trans Binding.reset_eq
  | setText characters => exact (hunit _).trans (Binding.setText_eq characters)
  | setArray values => exact (hunit _).trans (Binding.setArray_eq values)
  | setArrayElement index value => exact (hunit _).trans (Binding.setArrayElement_eq index value)
  | setEnumRaw raw => exact (hunit _).trans (Binding.setEnumRaw_eq raw)
  | setEnumName name => exact (hunit _).trans (Binding.setEnumName_eq name)
  | setBits set => exact (hunit _).trans (Binding.setBits_eq set)
  | setBit bit on => exact (hunit _).trans (Binding.setBit_eq bit on)
  | setChoice name on => exact (hunit _).trans (Binding.setChoice_eq name on)
  | _ => cases h

theorem FieldOperation.run_of_readsOnly {operation : FieldOperation α}
    (h : operation.readsOnly = true) : (operation.run b w).2 = w := by
  cases operation with
  | reset | setValue | setScalar | setScalar? | setText | setArray | setArrayElement | setEnumRaw
  | setEnumName | setBits | setBit | setChoice => cases h
  | _ => rfl

theorem FieldOperation.run_snd (operation : FieldOperation α) :
    (operation.run b w).2 = (b.settle (operation.edit b w.version (b.bits w)) w).2 := by
  cases h : operation.readsOnly with
  | false => rw [← run_edit h, Action.discard_apply]
  | true =>
    rw [run_of_readsOnly h]
    cases operation with
    | reset | setValue | setScalar | setScalar? | setText | setArray | setArrayElement | setEnumRaw
    | setEnumName | setBits | setBit | setChoice => cases h
    | _ => rfl

end

end SimpleBinary
