import SimpleBinary.Proofs.Absence
import SimpleBinary.Proofs.Footprint
import SimpleBinary.Proofs.Passage

/-!
Fields outside of the acting version. What an operation on such a field gives is a function of the
field, the version and what the operation is given; the window has no part in it and stays as it is.
A write is refused, if the field has no constant that it agrees with, and a group stays empty.
-/

namespace SimpleBinary

def Error.isShort : Error → Bool
  | .bufferTooShort _ _ => true
  | _ => false

def NeverShort {α : Type} (x : Except Error α) : Prop :=
  ∀ e, x = .error e → e.isShort = false

namespace NeverShort

variable {α β : Type}

theorem ok (a : α) : NeverShort (.ok a : Except Error α) :=
  fun _ h => by cases h

theorem error {e : Error} (h : e.isShort = false) : NeverShort (.error e : Except Error α) := by
  rintro _ ⟨⟩
  exact h

theorem bind {x : Except Error α} {f : α → Except Error β} (h : NeverShort x)
    (hf : ∀ a, NeverShort (f a)) : NeverShort (x >>= f) := by
  cases x with
  | ok a => exact hf a
  | error e =>
    rintro _ ⟨⟩
    exact h e rfl

theorem map {x : Except Error α} (h : NeverShort x) (f : α → β) : NeverShort (x.map f) := by
  cases x with
  | ok a => exact .ok _
  | error e => exact .error (h e rfl)

theorem ite {c : Prop} [Decidable c] {x y : Except Error α} (h : NeverShort x)
    (h' : NeverShort y) : NeverShort (if c then x else y) := by
  split
  · exact h
  · exact h'

end NeverShort

theorem exists_error_bind {α β : Type} {x : Except Error α} {f : α → Except Error β}
    (h : ∀ a, ∃ e, f a = .error e) : ∃ e, (x >>= f) = .error e := by
  cases x with
  | ok a => exact h a
  | error e => exact ⟨e, rfl⟩

theorem exists_error_map {α β : Type} {x : Except Error α} (h : ∃ e, x = .error e) (f : α → β) :
    ∃ e, x.map f = .error e := by
  obtain ⟨e, rfl⟩ := h
  exact ⟨e, rfl⟩

namespace Constant

def scalar? : Constant → Option Scalar
  | .scalar value => some value
  | .text _ => none

def characters? : Constant → Option Bytes
  | .scalar _ => none
  | .text characters => some (utf8 characters)

end Constant

namespace Field

def hidden (f : Field) : Binding :=
  ⟨f, 0, false⟩

def unseenRaw (f : Field) : Except Error UInt64 := do
  let e ← f.hidden.enumDef
  f.constantOr Constant.raw? e.null

def unseenBits (f : Field) : Except Error BitSet := do
  let s ← f.hidden.setDef
  f.constantOr (Constant.bits? s.encoding) (.empty s.encoding)

def unseenText (f : Field) : Except Error Bytes := do
  let _ ← f.hidden.textCapacity
  f.constantOr Constant.characters? []

def unseenBit (f : Field) (bit : Nat) : Except Error Bool := do
  let set ← f.unseenBits
  set.checkBit bit
  return set.contains bit

end Field

def refusal (edit? : Except Error (Option Edit)) : Except Error Unit :=
  edit?.map fun _ => ⟨⟩

/-- What the operation gives on a field that is not visible. -/
def FieldOperation.unseen {α : Type} (f : Field) (version : UInt16) :
    FieldOperation α → Except Error α
  | .present => .ok false
  | .reset => .error (f.notInVersion version)
  | .value => do
    let t ← f.hidden.typeDef
    f.constantOr (fun c => some c.toValue) t.absent
  | .setValue v => refusal (f.hidden.editOf version v)
  | @scalar α _ => do
    let t ← f.hidden.scalarType α
    f.constantOr (fun c => c.scalar?.map Element.ofScalar) (Element.ofScalar t.null)
  | @scalarNull α _ => (f.hidden.scalarType α).map fun t => Element.ofScalar t.null
  | @scalarLeast α _ => (f.hidden.scalarType α).map fun t => Element.ofScalar t.least
  | @scalarGreatest α _ => (f.hidden.scalarType α).map fun t => Element.ofScalar t.greatest
  | @scalar? _ _ => .ok none
  | @setScalar _ _ v => refusal (f.hidden.editScalar version v)
  | @setScalar? _ _ (some v) => refusal (f.hidden.editScalar version v)
  | @setScalar? _ _ none => .error (f.notInVersion version)
  | .textCapacity => f.hidden.textCapacity
  | .text => f.unseenText
  | .textString => do
    match Utf8.decode? (← f.unseenText) with
    | some characters => return characters
    | none => throw (.invalidText f.name)
  | .setText characters => refusal (f.hidden.editCharacters version characters)
  | @arrayLength α _ => (f.hidden.arrayType α).map (·.length)
  | @array α _ => do
    let _ ← f.hidden.arrayType α
    f.constantOr
      (fun c => c.characters?.bind fun bytes =>
        if Element.size α = 1 then some (elements α bytes) else none) []
  | @arrayElement α _ index => do
    let t ← f.hidden.arrayType α
    f.hidden.checkIndex t index
    f.constantOr (fun c => some (Element.ofScalar (c.element index))) (Element.ofScalar t.null)
  | @setArray _ _ values => refusal (f.hidden.editElements version values)
  | @setArrayElement _ _ index v => refusal (f.hidden.editElement version index v)
  | .enumRaw => f.unseenRaw
  | .enumName? => do
    let e ← f.hidden.enumDef
    f.unseenRaw.map e.nameOf?
  | .setEnumRaw raw => refusal (f.hidden.editRaw version raw)
  | .setEnumName name => refusal (f.hidden.editName version name)
  | .bits => f.unseenBits
  | .testBit bit => f.unseenBit bit
  | .testChoice name => do
    let choice ← f.hidden.choiceNamed name
    f.unseenBit choice.bit
  | .choices => do
    let s ← f.hidden.setDef
    f.unseenBits.map fun set =>
      (s.choices.filter (·.since ≤ version)).map fun choice =>
        (choice.name, set.contains choice.bit)
  | .setBits set => refusal (f.hidden.editBits version set)
  | .setBit bit on => refusal (f.hidden.editBit version f.unseenBits bit on)
  | .setChoice name on => refusal (f.hidden.editChoice version f.unseenBits name on)

theorem Binding.read_hidden {α : Type} (f : Field) (given : Constant → Option α) (absent : α)
    {read : Option Constant → Except Error α} (hnone : read none = .ok absent)
    (hsome : ∀ c, read (some c) =
      match given c with
      | some value => .ok value
      | none => .error f.hidden.kindMismatch) :
    (f.hidden.constant? >>= read) = f.constantOr given absent := by
  by_cases hp : f.presence = .constant
  · cases hc : f.constant with
    | none =>
      rw [Field.constantOr_of_none hp hc, constant?_of_none (b := f.hidden) hp hc]
      rfl
    | some c =>
      rw [Field.constantOr_of_constant hp hc, constant?_of_constant (b := f.hidden) hp hc]
      exact hsome c
  · rw [Field.constantOr_of_stored hp, constant?_of_stored (b := f.hidden) hp]
    exact hnone

section

variable {α : Type} (f : Field) (offset : Nat) (w : Window)

theorem refused_hidden {edit? : Except Error (Option Edit)}
    (h : ∀ edit, edit? ≠ .ok (some edit)) :
    (Binding.mk f offset false).settle edit? w = (refusal edit?, w) := by
  rcases edit? with e | _ | edit
  · rfl
  · rfl
  · exact absurd rfl (h edit)

theorem enumRaw_hidden : (Binding.mk f offset false).enumRaw w = f.unseenRaw := by
  unfold Field.unseenRaw
  cases hk : f.kind with
  | enum e =>
    rw [Binding.enumRaw_of_invisible (b := ⟨f, offset, false⟩) hk rfl,
      Binding.enumDef_eq (b := f.hidden) hk]
    rfl
  | _ =>
    simp only [Binding.enumRaw, Binding.enumDef, Field.hidden, hk]
    rfl

theorem bits_hidden : (Binding.mk f offset false).bits w = f.unseenBits := by
  unfold Field.unseenBits
  cases hk : f.kind with
  | set s =>
    rw [Binding.bits_of_invisible (b := ⟨f, offset, false⟩) hk rfl,
      Binding.setDef_eq (b := f.hidden) hk]
    rfl
  | _ =>
    simp only [Binding.bits, Binding.setDef, Field.hidden, hk]
    rfl

theorem value_hidden :
    (Binding.mk f offset false).value w = FieldOperation.value.unseen f w.version := by
  unfold FieldOperation.unseen
  cases hk : f.kind with
  | type t =>
    rw [Binding.value_of_invisible (b := ⟨f, offset, false⟩) hk rfl,
      Binding.typeDef_eq (b := f.hidden) hk]
    rfl
  | _ =>
    simp only [Binding.value, Binding.typeDef, Field.hidden, hk]
    rfl

theorem text_hidden : (Binding.mk f offset false).text w = f.unseenText := by
  apply Action.except_bind_congr
  intro capacity _
  apply Binding.read_hidden f
  · rfl
  · rintro (value | characters) <;> rfl

theorem textString_hidden : (Binding.mk f offset false).textString w =
    FieldOperation.textString.unseen f w.version := by
  unfold Binding.textString
  rw [text_hidden]
  rfl

theorem scalar_hidden (α : Type) [Element α] : (Binding.mk f offset false).scalar α w =
    (FieldOperation.scalar α).unseen f w.version := by
  apply Action.except_bind_congr
  intro t _
  apply Binding.read_hidden f
  · rfl
  · rintro (value | characters) <;> rfl

theorem array_hidden (α : Type) [Element α] : (Binding.mk f offset false).array α w =
    (FieldOperation.array α).unseen f w.version := by
  apply Action.except_bind_congr
  intro t _
  apply Binding.read_hidden f
  · rfl
  · rintro (value | characters)
    · rfl
    · by_cases hone : Element.size α = 1
      · simp only [hone, Constant.characters?, Option.bind_some, if_true, ne_eq, not_true_eq_false,
          if_false]
        rfl
      · simp only [hone, Constant.characters?, Option.bind_some, if_false, ne_eq,
          not_false_eq_true, if_true]
        rfl

theorem arrayElement_hidden (α : Type) [Element α] (index : Nat) :
    (Binding.mk f offset false).arrayElement α index w =
      (FieldOperation.arrayElement α index).unseen f w.version := by
  apply Action.except_bind_congr
  intro t _
  apply Action.except_bind_congr
  intro _ _
  apply Binding.read_hidden f
  · rfl
  · exact fun c => rfl

theorem testBit_hidden (bit : Nat) :
    (Binding.mk f offset false).testBit bit w = f.unseenBit bit := by
  unfold Binding.testBit
  rw [bits_hidden]
  rfl

end

theorem FieldOperation.run_hidden {α : Type} (operation : FieldOperation α) (f : Field)
    (offset : Nat) (w : Window) :
    operation.run ⟨f, offset, false⟩ w = (operation.unseen f w.version, w) := by
  -- A write is its edit settled, and no edit of a hidden field stores anything.
  have hsettle (write : FieldOperation Unit) :
      (Binding.mk f offset false).settle
          (write.edit ⟨f, offset, false⟩ w.version ((Binding.mk f offset false).bits w)) w =
        (refusal (write.edit f.hidden w.version f.unseenBits), w) := by
    rw [bits_hidden]
    apply refused_hidden
    intro edit hedit
    cases (stored_of_edit hedit).1
  cases operation with
  | present | reset | scalarNull | scalarLeast | scalarGreatest | scalar? | textCapacity
  | arrayLength => rfl
  | value => exact Prod.ext (value_hidden f offset w) rfl
  | setValue v => exact (Binding.setValue_eq v).trans (hsettle (.setValue v))
  | scalar => exact Prod.ext (scalar_hidden f offset w _) rfl
  | setScalar v => exact (Binding.setScalar_eq v).trans (hsettle (.setScalar v))
  | setScalar? v? =>
    cases v? with
    | some v => exact (Binding.setScalar_eq v).trans (hsettle (.setScalar v))
    | none => rfl
  | text => exact Prod.ext (text_hidden f offset w) rfl
  | textString => exact Prod.ext (textString_hidden f offset w) rfl
  | setText characters =>
    exact (Binding.setText_eq characters).trans (hsettle (.setText characters))
  | array => exact Prod.ext (array_hidden f offset w _) rfl
  | arrayElement _ index => exact Prod.ext (arrayElement_hidden f offset w _ index) rfl
  | setArray values => exact (Binding.setArray_eq values).trans (hsettle (.setArray values))
  | setArrayElement index v =>
    exact (Binding.setArrayElement_eq index v).trans (hsettle (.setArrayElement index v))
  | enumRaw => exact Prod.ext (enumRaw_hidden f offset w) rfl
  | enumName? =>
    simp only [run, unseen, Action.query_apply, Binding.enumName?, enumRaw_hidden]
    congr 1
  | setEnumRaw raw => exact (Binding.setEnumRaw_eq raw).trans (hsettle (.setEnumRaw raw))
  | setEnumName name => exact (Binding.setEnumName_eq name).trans (hsettle (.setEnumName name))
  | bits => exact Prod.ext (bits_hidden f offset w) rfl
  | testBit bit => exact Prod.ext (testBit_hidden f offset w bit) rfl
  | testChoice name =>
    simp only [run, unseen, Action.query_apply, Binding.testChoice, testBit_hidden]
    rfl
  | choices =>
    simp only [run, unseen, Action.query_apply, Binding.choices, bits_hidden]
    congr 1
  | setBits set => exact (Binding.setBits_eq set).trans (hsettle (.setBits set))
  | setBit bit on => exact (Binding.setBit_eq bit on).trans (hsettle (.setBit bit on))
  | setChoice name on => exact (Binding.setChoice_eq name on).trans (hsettle (.setChoice name on))

namespace Field

variable {α : Type} {f : Field} {version : UInt16}

theorem neverShort_constantOr (given : Constant → Option α) (absent : α) :
    NeverShort (f.constantOr given absent) := by
  unfold constantOr
  apply NeverShort.ite
  · cases f.constant.bind given with
    | some value => exact .ok value
    | none => exact .error rfl
  · exact .ok absent

theorem neverShort_typeDef : NeverShort f.hidden.typeDef := by
  unfold Binding.typeDef
  cases f.hidden.field.kind with
  | type t => exact .ok t
  | _ => exact .error rfl

theorem neverShort_enumDef : NeverShort f.hidden.enumDef := by
  unfold Binding.enumDef
  cases f.hidden.field.kind with
  | enum e => exact .ok e
  | _ => exact .error rfl

theorem neverShort_setDef : NeverShort f.hidden.setDef := by
  unfold Binding.setDef
  cases f.hidden.field.kind with
  | set s => exact .ok s
  | _ => exact .error rfl

theorem neverShort_scalarType (α : Type) [Element α] : NeverShort (f.hidden.scalarType α) := by
  apply NeverShort.bind neverShort_typeDef
  intro t
  exact .ite (.error rfl) (.ok t)

theorem neverShort_arrayType (α : Type) [Element α] : NeverShort (f.hidden.arrayType α) := by
  apply NeverShort.bind neverShort_typeDef
  intro t
  exact .ite (.error rfl) (.ok t)

theorem neverShort_textCapacity : NeverShort f.hidden.textCapacity := by
  apply NeverShort.bind neverShort_typeDef
  intro t
  exact .ite (.error rfl) (.ok t.length)

theorem neverShort_choiceNamed (name : String) : NeverShort (f.hidden.choiceNamed name) := by
  apply NeverShort.bind neverShort_setDef
  intro s
  cases s.choice? name with
  | some choice => exact .ok choice
  | none => exact .error rfl

theorem neverShort_checkIndex (t : TypeDef) (index : Nat) :
    NeverShort (f.hidden.checkIndex t index) :=
  .ite (.ok _) (.error rfl)

theorem neverShort_constant? : NeverShort f.hidden.constant? := by
  unfold Binding.constant?
  apply NeverShort.ite
  · cases f.hidden.field.constant with
    | some value => exact .ok _
    | none => exact .error rfl
  · exact .ok none

theorem neverShort_constantRaw? : NeverShort f.hidden.constantRaw? := by
  apply NeverShort.bind neverShort_constant?
  rintro (_ | ⟨value⟩ | ⟨characters⟩)
  · exact .ok none
  · exact .ok _
  · dsimp only
    split
    · exact .ok _
    · exact .error rfl

theorem neverShort_unseenRaw : NeverShort f.unseenRaw :=
  .bind neverShort_enumDef fun _ => neverShort_constantOr _ _

theorem neverShort_unseenBits : NeverShort f.unseenBits :=
  .bind neverShort_setDef fun _ => neverShort_constantOr _ _

theorem neverShort_unseenText : NeverShort f.unseenText :=
  .bind neverShort_textCapacity fun _ => neverShort_constantOr _ _

theorem neverShort_checkBit (set : BitSet) (bit : Nat) : NeverShort (set.checkBit bit) :=
  .ite (.ok _) (.error rfl)

theorem neverShort_unseenBit (bit : Nat) : NeverShort (f.unseenBit bit) := by
  apply NeverShort.bind neverShort_unseenBits
  intro set
  exact .bind (neverShort_checkBit set bit) fun _ => .ok _

end Field

namespace Binding

variable {f : Field} {version : UInt16}

theorem neverShort_editNothing (differs : Prop) [Decidable differs] :
    NeverShort (f.hidden.editNothing differs) :=
  .ite (.error rfl) (.ok none)

theorem neverShort_editStored (differs : Constant → Prop) [DecidablePred differs]
    (edit : Except Error Edit) : NeverShort (f.hidden.editStored version differs edit) := by
  apply NeverShort.bind Field.neverShort_constant?
  rintro (_ | constant)
  · exact .error rfl
  · exact neverShort_editNothing _

theorem neverShort_editRaw (raw : UInt64) : NeverShort (f.hidden.editRaw version raw) := by
  apply NeverShort.bind Field.neverShort_enumDef
  intro e
  apply NeverShort.bind Field.neverShort_constantRaw?
  rintro (_ | expected)
  · exact .error rfl
  · exact neverShort_editNothing _

theorem neverShort_editBits (set : BitSet) : NeverShort (f.hidden.editBits version set) := by
  apply NeverShort.bind Field.neverShort_setDef
  intro s
  apply NeverShort.bind Field.neverShort_constant?
  rintro (_ | ⟨value⟩ | ⟨characters⟩)
  · exact .error rfl
  · exact neverShort_editNothing _
  · exact .error rfl

theorem neverShort_editBit (bit : Nat) (on : Bool) :
    NeverShort (f.hidden.editBit version f.unseenBits bit on) := by
  apply NeverShort.bind Field.neverShort_unseenBits
  intro set
  exact .bind ((Field.neverShort_checkBit set bit).map _) fun _ => neverShort_editBits _

theorem exists_error_editStored (hp : f.presence ≠ .constant) (differs : Constant → Prop)
    [DecidablePred differs] (edit : Except Error Edit) :
    ∃ e, f.hidden.editStored version differs edit = .error e := by
  rw [editStored, constant?_of_stored (b := f.hidden) hp]
  exact ⟨_, rfl⟩

theorem exists_error_editRaw (hp : f.presence ≠ .constant) (raw : UInt64) :
    ∃ e, f.hidden.editRaw version raw = .error e := by
  apply exists_error_bind
  intro e
  rw [constantRaw?_of_stored (b := f.hidden) hp]
  exact ⟨_, rfl⟩

theorem exists_error_editBits (hp : f.presence ≠ .constant) (set : BitSet) :
    ∃ e, f.hidden.editBits version set = .error e := by
  apply exists_error_bind
  intro s
  rw [constant?_of_stored (b := f.hidden) hp]
  exact ⟨_, rfl⟩

theorem exists_error_editBit (hp : f.presence ≠ .constant) (bit : Nat) (on : Bool) :
    ∃ e, f.hidden.editBit version f.unseenBits bit on = .error e := by
  apply exists_error_bind
  intro set
  apply exists_error_bind
  exact exists_error_editBits hp

end Binding

namespace FieldOperation

variable {α : Type} {f : Field} {version : UInt16}

theorem neverShort_unseen (operation : FieldOperation α) :
    NeverShort (operation.unseen f version) := by
  cases operation with
  | present => exact .ok false
  | reset => exact .error rfl
  | value => exact .bind f.neverShort_typeDef fun _ => f.neverShort_constantOr _ _
  | setValue v =>
    exact .map (.bind f.neverShort_typeDef fun _ => Binding.neverShort_editStored _ _) _
  | scalar => exact .bind (f.neverShort_scalarType _) fun _ => f.neverShort_constantOr _ _
  | scalarNull | scalarLeast | scalarGreatest => exact .map (f.neverShort_scalarType _) _
  | scalar? => exact .ok none
  | setScalar v =>
    exact .map (.bind (f.neverShort_scalarType _) fun _ => Binding.neverShort_editStored _ _) _
  | setScalar? v? =>
    cases v? with
    | some v =>
      exact .map (.bind (f.neverShort_scalarType _) fun _ => Binding.neverShort_editStored _ _) _
    | none => exact .error rfl
  | textCapacity => exact f.neverShort_textCapacity
  | text => exact f.neverShort_unseenText
  | textString =>
    apply NeverShort.bind f.neverShort_unseenText
    intro bytes
    cases Utf8.decode? bytes with
    | some characters => exact .ok characters
    | none => exact .error rfl
  | setText characters =>
    exact .map (.bind f.neverShort_textCapacity fun _ => Binding.neverShort_editStored _ _) _
  | arrayLength => exact .map (f.neverShort_arrayType _) _
  | array => exact .bind (f.neverShort_arrayType _) fun _ => f.neverShort_constantOr _ _
  | arrayElement _ index =>
    apply NeverShort.bind (f.neverShort_arrayType _)
    intro t
    exact .bind (f.neverShort_checkIndex t index) fun _ => f.neverShort_constantOr _ _
  | setArray values =>
    exact .map (.bind (f.neverShort_arrayType _) fun _ => Binding.neverShort_editStored _ _) _
  | setArrayElement index v =>
    apply NeverShort.map
    exact .bind (f.neverShort_arrayType _) fun _ => .error rfl
  | enumRaw => exact f.neverShort_unseenRaw
  | enumName? => exact .bind f.neverShort_enumDef fun _ => f.neverShort_unseenRaw.map _
  | setEnumRaw raw => exact .map (Binding.neverShort_editRaw raw) _
  | setEnumName name =>
    apply NeverShort.map
    apply NeverShort.bind f.neverShort_enumDef
    intro e
    cases e.valueOf? name with
    | some raw => exact Binding.neverShort_editRaw raw
    | none => exact .error rfl
  | bits => exact f.neverShort_unseenBits
  | testBit bit => exact f.neverShort_unseenBit bit
  | testChoice name =>
    exact .bind (f.neverShort_choiceNamed name) fun _ => f.neverShort_unseenBit _
  | choices => exact .bind f.neverShort_setDef fun _ => f.neverShort_unseenBits.map _
  | setBits set => exact .map (Binding.neverShort_editBits set) _
  | setBit bit on => exact .map (Binding.neverShort_editBit bit on) _
  | setChoice name on =>
    apply NeverShort.map
    exact .bind (f.neverShort_choiceNamed name) fun choice =>
      Binding.neverShort_editBit choice.bit on

theorem exists_error_unseen {operation : FieldOperation α} (h : operation.readsOnly = false)
    (hp : f.presence ≠ .constant) : ∃ e, operation.unseen f version = .error e := by
  cases operation with
  | reset => exact ⟨_, rfl⟩
  | setValue v =>
    apply exists_error_map
    exact exists_error_bind fun _ => Binding.exists_error_editStored hp _ _
  | setScalar v =>
    apply exists_error_map
    exact exists_error_bind fun _ => Binding.exists_error_editStored hp _ _
  | setScalar? v? =>
    cases v? with
    | some v =>
      apply exists_error_map
      exact exists_error_bind fun _ => Binding.exists_error_editStored hp _ _
    | none => exact ⟨_, rfl⟩
  | setText characters =>
    apply exists_error_map
    exact exists_error_bind fun _ => Binding.exists_error_editStored hp _ _
  | setArray values =>
    apply exists_error_map
    exact exists_error_bind fun _ => Binding.exists_error_editStored hp _ _
  | setArrayElement index v =>
    apply exists_error_map
    exact exists_error_bind fun _ => ⟨_, rfl⟩
  | setEnumRaw raw =>
    apply exists_error_map
    exact Binding.exists_error_editRaw hp raw
  | setEnumName name =>
    apply exists_error_map
    apply exists_error_bind
    intro e
    cases e.valueOf? name with
    | some raw => exact Binding.exists_error_editRaw hp raw
    | none => exact ⟨_, rfl⟩
  | setBits set =>
    apply exists_error_map
    exact Binding.exists_error_editBits hp set
  | setBit bit on =>
    apply exists_error_map
    exact Binding.exists_error_editBit hp bit on
  | setChoice name on =>
    apply exists_error_map
    exact exists_error_bind fun choice => Binding.exists_error_editBit hp choice.bit on
  | _ => cases h

end FieldOperation

def DataOperation.unseen {α : Type} (f : Field) (d : DataDef) (version : UInt16) :
    DataOperation α → Except Error α
  | .length | .skip => .ok 0
  | .value => .ok []
  | .valueArray => .ok ⟨d.varDataMember.primitive, []⟩
  | @values α _ => do
    (DataView.mk f d false).checkElement α
    return []
  | .valueString => .ok ""
  | .setValue bytes =>
    let rest := bytes.length % d.varDataMember.primitive.size
    if rest ≠ 0 then .error (.lengthMismatch f.name (bytes.length - rest) bytes.length)
    else .error (f.notInVersion version)
  | @setValues α _ _ => do
    (DataView.mk f d false).checkElement α
    throw (f.notInVersion version)

namespace DataOperation

variable {α : Type} (operation : DataOperation α) (f : Field) (d : DataDef)

theorem neverShort_checkElement (α : Type) [Element α] :
    NeverShort ((DataView.mk f d false).checkElement α) :=
  .ite (.ok _) (.error rfl)

theorem run_hidden (w : Window) :
    operation.run ⟨f, d, false⟩ w = (operation.unseen f d w.version, w) := by
  cases operation with
  | length | skip | value | valueString | valueArray => rfl
  | values β =>
    have hnone : elements β [] = [] := by
      rw [elements, List.length_nil, Nat.zero_div]
      rfl
    simp only [run, unseen, DataView.values, Action.bind_apply, Action.lift_apply]
    cases (DataView.mk f d false).checkElement β with
    | error e => rfl
    | ok _ =>
      dsimp only
      rw [DataView.value_of_invisible rfl]
      simp only [Action.pure_apply, hnone]
      rfl
  | setValue bytes =>
    simp only [run, unseen, DataView.setValue, DataView.elementSize, Action.throw_bind]
    split
    · rfl
    · rfl
  | @setValues β _ elements =>
    simp only [run, unseen, DataView.setValues, Action.bind_apply, Action.lift_apply]
    cases (DataView.mk f d false).checkElement β <;> rfl

theorem neverShort_unseen (version : UInt16) : NeverShort (operation.unseen f d version) := by
  cases operation with
  | length | skip => exact .ok 0
  | value => exact .ok []
  | valueArray | valueString => exact .ok _
  | values => exact .bind (neverShort_checkElement f d _) fun _ => .ok []
  | setValue bytes => exact .ite (.error rfl) (.error rfl)
  | setValues elements => exact .bind (neverShort_checkElement f d _) fun _ => .error rfl

theorem exists_error_unseen {operation : DataOperation α} (h : operation.readsOnly = false)
    (version : UInt16) : ∃ e, operation.unseen f d version = .error e := by
  cases operation with
  | setValue bytes =>
    unfold unseen
    dsimp only
    split
    · exact ⟨_, rfl⟩
    · exact ⟨_, rfl⟩
  | setValues elements => exact exists_error_bind fun _ => ⟨_, rfl⟩
  | _ => cases h

end DataOperation

namespace GroupView

def unseen (f : Field) (g : GroupDef) (position : Nat) : GroupView :=
  ⟨f, g, position, g.blockLength, 0, 0, none, false⟩

end GroupView

namespace Iteration

variable (f : Field) (g : GroupDef) (position : Nat) (w : Window)

theorem next_hidden : next ⟨.unseen f g position, w⟩ =
    (.error (.groupCountExceeded f.name 0), ⟨.unseen f g position, w⟩) :=
  next_of_done (Nat.le_refl 0)

theorem skip_hidden : skip ⟨.unseen f g position, w⟩ = (.ok ⟨⟩, ⟨.unseen f g position, w⟩) := rfl

theorem resetCount_hidden (count : Nat) : resetCount count ⟨.unseen f g position, w⟩ =
    (.error (f.notInVersion w.version), ⟨.unseen f g position, w⟩) := rfl

end Iteration

mutual

def Place.Hidden (s : Session) : Place → Prop
  | .body | .element _ => False
  | .members spot => spot.Hidden s

def Spot.Hidden (s : Session) : Spot → Prop
  | .header => False
  | .field place selector => place.Hidden s ∨
    ∃ block f, s.block place = .ok block ∧ selector.fieldOf block = .ok f ∧
      s.message.version < f.since

end

namespace Session

variable {s : Session}

mutual

theorem visible_of_block : ∀ (place : Place) (block : Block), s.block place = .ok block →
    (block.visible = false ↔ place.Hidden s)
  | .body, _, rfl => by simp [Place.Hidden, Message.body]
  | .element group, block, hb => by
    obtain ⟨view, -, hb⟩ := Action.except_bind_eq_ok hb
    unfold GroupView.element at hb
    cases hc : view.current with
    | none =>
      rw [hc] at hb
      cases hb
    | some base =>
      rw [hc] at hb
      cases hb
      simp [Place.Hidden]
  | .members spot, block, hb => by
    obtain ⟨b, hbind, hb⟩ := Action.except_bind_eq_ok hb
    obtain ⟨view, hview, hb⟩ := Action.except_bind_eq_ok hb
    cases hb
    have hvisible := visible_of_bind spot b hbind
    unfold CompositeView.ofBinding at hview
    cases hk : b.field.kind with
    | composite c =>
      rw [hk] at hview
      cases hview
      exact hvisible
    | _ =>
      rw [hk] at hview
      cases hview

theorem visible_of_bind : ∀ (spot : Spot) (b : Binding), s.bind spot = .ok b →
    (b.visible = false ↔ spot.Hidden s)
  | .header, b, hb => by
    obtain ⟨view, hview, hb⟩ := Action.except_bind_eq_ok hb
    cases hb
    unfold Message.header at hview
    cases hh : s.message.headerOffset with
    | none =>
      rw [hh] at hview
      cases hview
    | some offset =>
      rw [hh] at hview
      cases hview
      simp [Spot.Hidden]
  | .field place selector, b, hb => by
    obtain ⟨block, hblock, hb⟩ := Action.except_bind_eq_ok hb
    obtain ⟨f, hf, hb⟩ := Action.except_bind_eq_ok hb
    cases hb
    have hvisible := visible_of_block place block hblock
    simp only [Spot.Hidden, Block.bind, Field.bindAt, Bool.and_eq_false_iff, hvisible]
    constructor
    · rintro (hplace | hversion)
      · exact .inl hplace
      · exact .inr ⟨block, f, hblock, hf, by simpa [Field.inVersion] using hversion⟩
    · rintro (hplace | ⟨block', f', hblock', hf', hversion⟩)
      · exact .inl hplace
      · cases hblock.symm.trans hblock'
        cases hf.symm.trans hf'
        exact .inr (by simpa [Field.inVersion] using hversion)

end

theorem iterate_hidden {α : Type} {n : Nat} {view : GroupView} {steps : Action Iteration α}
    {result : Except Error α} (hview : s.groups[n]? = some view)
    (hsteps : steps ⟨view, s.window⟩ = (result, ⟨view, s.window⟩)) :
    iterate n steps s = (result, s) :=
  iterate_of_unchanged (groupAt_eq_ok_iff.mpr hview) hsteps

theorem groups_iterate {α : Type} {n : Nat} {view : GroupView} {steps : Action Iteration α}
    (hview : s.groups[n]? = some view) (hsteps : ∀ w, (steps ⟨view, w⟩).2.group = view) (g : Nat) :
    (iterate g steps s).2.groups[n]? = some view := by
  apply Action.get_bind_after (P := fun t : Session => t.groups[n]? = some view)
  apply Action.lift_bind_after (P := fun t : Session => t.groups[n]? = some view) hview
  intro view' hview'
  have hat := groupAt_eq_ok_iff.mp hview'
  rw [Action.onPart_apply]
  by_cases hg : g = n
  · subst hg
    obtain rfl : view' = view := Option.some.inj (hat.symm.trans hview)
    dsimp only
    rw [hsteps, set_groups_self hview, hview]
  · dsimp only
    rw [List.getElem?_set_ne hg, hview]

end Session

theorem Operation.keeps_hidden {α : Type} (operation : Operation α) {s : Session} {n : Nat}
    {f : Field} {g : GroupDef} {position : Nat}
    (h : s.groups[n]? = some (.unseen f g position)) :
    (operation.run s).2.groups[n]? = some (.unseen f g position) := by
  have hkept (hk : Keeps Session.groups operation.run) :
      (operation.run s).2.groups[n]? = some (.unseen f g position) := by
    rw [hk s, h]
  cases operation with
  | field spot operation =>
    exact hkept (.get_bind fun _ => .bind (.lift _) fun _ _ => rfl)
  | data spot operation =>
    exact hkept (.get_bind fun _ => .bind (.lift _) fun _ => .bind (.lift _) fun _ _ => rfl)
  | entry spot => exact hkept (.get_bind fun _ => .bind (.lift _) fun _ _ => rfl)
  | group spot =>
    have hlt : n < s.groups.length := (List.getElem?_eq_some_iff.mp h).1
    simp only [run, Action.bind_apply, Action.get_apply, Action.lift_apply, Session.onWindow,
      Action.onPart_apply]
    cases s.bind spot with
    | error e => exact h
    | ok b =>
      dsimp only
      cases GroupView.ofBinding b s.window with
      | mk result w =>
        cases result with
        | error e => exact h
        | ok view => exact (List.getElem?_append_left hlt).trans h
  | state g => exact hkept (.get_bind fun _ => .lift _)
  | next k => exact Session.groups_iterate h (fun w => by rw [Iteration.next_hidden]) k
  | resetCount k count =>
    exact Session.groups_iterate h (fun w => by rw [Iteration.resetCount_hidden]) k
  | skipGroup k => exact Session.groups_iterate h (fun w => by rw [Iteration.skip_hidden]) k
  | rewind => exact hkept fun _ => rfl
  | skip => exact hkept fun _ => rfl

theorem Session.runSteps_hidden (steps : List Step) {n : Nat} {f : Field} {g : GroupDef}
    {position : Nat} :
    ∀ {s : Session}, s.groups[n]? = some (.unseen f g position) →
      (runSteps steps s).2.groups[n]? = some (.unseen f g position) := by
  induction steps with
  | nil => exact fun h => h
  | cons step rest ih =>
    obtain ⟨α, operation⟩ := step
    intro s h
    exact ih (operation.keeps_hidden h)

namespace Session

variable {s : Session} {spot : Spot} {f : Field} {offset : Nat}

theorem field_hidden (hb : s.bind spot = .ok ⟨f, offset, false⟩) {α : Type}
    (operation : FieldOperation α) :
    (Operation.field spot operation).run s = (operation.unseen f s.message.version, s) := by
  simp only [Operation.run, Action.bind_apply, Action.get_apply, Action.lift_apply, hb, onWindow,
    Action.onPart_apply, operation.run_hidden]
  rfl

theorem data_hidden (hb : s.bind spot = .ok ⟨f, offset, false⟩) {d : DataDef}
    (hk : f.kind = .data d) {α : Type} (operation : DataOperation α) :
    (Operation.data spot operation).run s = (operation.unseen f d s.message.version, s) := by
  have hview : DataView.ofBinding ⟨f, offset, false⟩ = .ok ⟨f, d, false⟩ := by
    simp only [DataView.ofBinding, hk]
  simp only [Operation.run, Action.bind_apply, Action.get_apply, Action.lift_apply, hb, hview,
    onWindow, Action.onPart_apply, operation.run_hidden]
  rfl

theorem group_hidden (hb : s.bind spot = .ok ⟨f, offset, false⟩) {g : GroupDef}
    (hk : f.kind = .group g) :
    (Operation.group spot).run s = (.ok (.unseen f g s.message.position),
      { s with groups := s.groups ++ [.unseen f g s.message.position] }) := by
  have hview : GroupView.ofBinding ⟨f, offset, false⟩ s.window =
      (.ok (.unseen f g s.message.position), s.window) := by
    simp only [GroupView.ofBinding, hk]
    rfl
  simp only [Operation.run, Action.bind_apply, Action.get_apply, Action.lift_apply, hb, onWindow,
    Action.onPart_apply, hview]
  rfl

theorem entry_hidden (hb : s.bind spot = .ok ⟨f, offset, false⟩) :
    ∃ entry, (Operation.entry spot).run s = (.ok entry, s) ∧ entry.field = f := by
  have hentry : ∃ entry, (Binding.mk f offset false).entry s.window = (.ok entry, s.window) ∧
      entry.field = f := by
    unfold Binding.entry
    cases hk : f.kind with
    | group g => exact ⟨.group (.unseen f g s.message.position), rfl, rfl⟩
    | _ => exact ⟨_, rfl, rfl⟩
  obtain ⟨entry, hrun, hfield⟩ := hentry
  refine ⟨entry, ?_, hfield⟩
  simp only [Operation.run, Action.bind_apply, Action.get_apply, Action.lift_apply, hb, onWindow,
    Action.onPart_apply, hrun]
  rfl

/-- A field that came after the version, or is in a composite that did, is seen as the field says,
whatever the window holds and wherever it ends. It takes no write, and the session stays as it
is. -/
theorem unseen_of_hidden {b : Binding} (hb : s.bind spot = .ok b) (hh : spot.Hidden s) :
    (∀ {α : Type} (operation : FieldOperation α),
      (Operation.field spot operation).run s = (operation.unseen b.field s.message.version, s) ∧
      NeverShort (operation.unseen b.field s.message.version) ∧
      (operation.readsOnly = false → b.field.presence ≠ .constant →
        ∃ e, operation.unseen b.field s.message.version = .error e)) ∧
    (∀ d, b.field.kind = .data d → ∀ {α : Type} (operation : DataOperation α),
      (Operation.data spot operation).run s =
        (operation.unseen b.field d s.message.version, s) ∧
      NeverShort (operation.unseen b.field d s.message.version) ∧
      (operation.readsOnly = false →
        ∃ e, operation.unseen b.field d s.message.version = .error e)) ∧
    (∃ entry, (Operation.entry spot).run s = (.ok entry, s) ∧ entry.field = b.field) ∧
    ∀ g, b.field.kind = .group g → ∃ view n,
      view = .unseen b.field g s.message.position ∧ n = s.groups.length ∧
      (Operation.group spot).run s = (.ok view, { s with groups := s.groups ++ [view] }) ∧
      ∀ steps t, t = (runSteps steps { s with groups := s.groups ++ [view] }).2 →
        (Operation.state n).run t = (.ok view, t) ∧
        t.block (.element n) = .error (.noCurrentElement b.field.name) ∧
        (Operation.next n).run t = (.error (.groupCountExceeded b.field.name 0), t) ∧
        (Operation.skipGroup n).run t = (.ok ⟨⟩, t) ∧
        ∀ count, (Operation.resetCount n count).run t =
          (.error (b.field.notInVersion t.message.version), t) := by
  have hv : b.visible = false := (visible_of_bind spot b hb).mpr hh
  obtain ⟨f, offset, _⟩ := b
  obtain rfl : _ = false := hv
  refine ⟨?_, ?_, entry_hidden hb, ?_⟩
  · intro α operation
    exact ⟨field_hidden hb operation, operation.neverShort_unseen,
      FieldOperation.exists_error_unseen⟩
  · intro d hk α operation
    exact ⟨data_hidden hb hk operation, operation.neverShort_unseen f d _,
      fun h => DataOperation.exists_error_unseen f d h _⟩
  · intro g hk
    refine ⟨_, _, rfl, rfl, group_hidden hb hk, ?_⟩
    rintro steps t rfl
    have hstart : (s.groups ++ [.unseen f g s.message.position])[s.groups.length]? =
        some (.unseen f g s.message.position) := by
      rw [List.getElem?_append_right (Nat.le_refl _), Nat.sub_self]
      rfl
    -- No step changes the view of a hidden group, whatever is done in between.
    have hview := runSteps_hidden steps
      (s := { s with groups := s.groups ++ [.unseen f g s.message.position] }) hstart
    generalize (runSteps steps
      { s with groups := s.groups ++ [.unseen f g s.message.position] }).2 = t at hview
    have hat : t.groupAt s.groups.length = .ok (.unseen f g s.message.position) := by
      rw [groupAt, hview]
    refine ⟨?_, ?_, iterate_hidden hview (Iteration.next_hidden _ _ _ _),
      iterate_hidden hview (Iteration.skip_hidden _ _ _ _),
      fun count => iterate_hidden hview (Iteration.resetCount_hidden _ _ _ _ count)⟩
    · simp only [Operation.run, Action.bind_apply, Action.get_apply, Action.lift_apply, hat]
    · simp only [block, hat]
      rfl

theorem unseen_of_hidden_emptyBook :
    ∃ s b, s = Session.mk ⟨⟨[], 0, 0, 1, by decide⟩, Market.EmptyBook.definition, 0, none, 0⟩ [] ∧
      s.bind (.field .body (.name "rptSeq")) = .ok b ∧
      Spot.Hidden s (.field .body (.name "rptSeq")) ∧
      (Operation.field (.field .body (.name "rptSeq")) .value).run s =
        (.ok (.scalar (.uint 0)), s) ∧
      (Operation.field (.field .body (.name "rptSeq")) (.setValue (.scalar (.uint 7)))).run s =
        (.error (.fieldNotInVersion "rptSeq" 1), s) := by
  have hb : (Session.mk ⟨⟨[], 0, 0, 1, by decide⟩, Market.EmptyBook.definition, 0, none, 0⟩ []).bind
      (.field .body (.name "rptSeq")) = .ok _ := rfl
  have hh : Spot.Hidden
      (Session.mk ⟨⟨[], 0, 0, 1, by decide⟩, Market.EmptyBook.definition, 0, none, 0⟩ [])
      (.field .body (.name "rptSeq")) := .inr ⟨_, _, rfl, rfl, by decide⟩
  obtain ⟨hfield, -⟩ := unseen_of_hidden hb hh
  exact ⟨_, _, rfl, hb, hh, (hfield .value).1, (hfield (.setValue (.scalar (.uint 7)))).1⟩

end Session

end SimpleBinary
