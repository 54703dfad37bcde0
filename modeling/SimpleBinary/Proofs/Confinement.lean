import SimpleBinary.Proofs.Alike
import SimpleBinary.Proofs.Group
import SimpleBinary.Proofs.Presence
import SimpleBinary.Proofs.Spans
import SimpleBinary.Proofs.Session

namespace SimpleBinary

section

variable {a b : Surroundings} {w w' : Window} {f : Binding}

theorem Twins.presentAt_eq (h : Twins a b w w') (f : Field) :
    ∀ offset, a.start ≤ offset → offset + f.reach < UInt64.size →
      f.presentAt w' offset = f.presentAt w offset := by
  induction f using Field.first_member_induction with
  | step f ih =>
    intro offset ho hword
    have hstored : f.storedAt w' offset = f.storedAt w offset := by
      unfold Field.storedAt
      cases hk : f.kind with
      | type t => simp only [h.readScalar_eq ho]
      | enum e => simp only [h.readScalar_eq ho]
      | composite c =>
        dsimp only
        cases hc : c.fields with
        | nil => rfl
        | cons first rest =>
          obtain ⟨hplace, hreach⟩ := Field.wordOf_member hk (m := first) (by simp [hc]) hword
          dsimp only
          rw [hplace]
          exact ih c hk first (by simp [hc]) _ (Nat.le_add_right_of_le ho) hreach
      | _ => rfl
    rw [Field.presentAt_eq, Field.presentAt_eq, h.version_eq, hstored]

/-- The field is not before the start, and no sum for it wraps. -/
structure Binding.From (f : Binding) (start : Nat) : Prop where
  start_le : start ≤ f.offset
  word : f.offset + f.field.reach < UInt64.size

theorem Binding.From.wordOf_element (h : f.From a.start) {α : Type} [Element α] {t : TypeDef}
    (ht : f.arrayType α = .ok t) {index : Nat} {u : Unit} (hi : f.checkIndex t index = .ok u) :
    wordOf (f.offset + index * Element.size α) = f.offset + index * Element.size α := by
  obtain ⟨t', hk, ht⟩ := Action.except_bind_eq_ok ht
  dsimp only at ht
  split at ht
  next => cases ht
  next hsize =>
    cases ht
    have hkind : f.field.kind = .type t := by
      unfold Binding.typeDef at hk
      split at hk
      next hkind =>
        cases hk
        exact hkind
      next => cases hk
    have hlt : index < t.length := by
      unfold Binding.checkIndex at hi
      split at hi
      next hlt => exact hlt
      next => cases hi
    have hword := h.word
    rw [Field.reach_type hkind, TypeDef.extent, Decidable.not_not.mp hsize] at hword
    have hle : index * Element.size α ≤ Element.size α * t.length := by
      rw [Nat.mul_comm]
      exact Nat.mul_le_mul_left _ (Nat.le_of_lt hlt)
    exact wordOf_of_lt (by omega)

section

variable (h : Twins a b w w') (hf : f.From a.start)

include h hf

theorem Twins.present_eq : f.present w' = f.present w := by
  simp only [Binding.present, h.presentAt_eq f.field f.offset hf.start_le hf.word]

theorem Twins.value_eq : f.value w' = f.value w := by
  simp only [Binding.value, h.readScalar_eq hf.start_le, h.read_eq hf.start_le]

theorem Twins.scalar_eq (α : Type) [Element α] : f.scalar α w' = f.scalar α w := by
  simp only [Binding.scalar, h.readElement_eq hf.start_le]

theorem Twins.scalar?_eq (α : Type) [Element α] : f.scalar? α w' = f.scalar? α w := by
  simp only [Binding.scalar?, h.present_eq hf, h.scalar_eq hf]

theorem Twins.text_eq : f.text w' = f.text w := by
  simp only [Binding.text, h.read_eq hf.start_le]

theorem Twins.textString_eq : f.textString w' = f.textString w := by
  simp only [Binding.textString, h.text_eq hf]

theorem Twins.array_eq (α : Type) [Element α] : f.array α w' = f.array α w := by
  simp only [Binding.array, h.read_eq hf.start_le]

theorem Twins.arrayElement_eq (α : Type) [Element α] (index : Nat) :
    f.arrayElement α index w' = f.arrayElement α index w := by
  unfold Binding.arrayElement
  cases ht : f.arrayType α with
  | error e => rfl
  | ok t =>
    cases hi : f.checkIndex t index with
    | error e =>
      rw [Action.ok_bind, Action.ok_bind, hi]
      rfl
    | ok u =>
      have hle : a.start ≤ f.offset + index * Element.size α := Nat.le_add_right_of_le hf.start_le
      simp only [Action.ok_bind, hf.wordOf_element ht hi, h.readElement_eq hle]

theorem Twins.enumRaw_eq : f.enumRaw w' = f.enumRaw w := by
  simp only [Binding.enumRaw, h.readScalar_eq hf.start_le]

theorem Twins.enumName?_eq : f.enumName? w' = f.enumName? w := by
  simp only [Binding.enumName?, h.enumRaw_eq hf]

theorem Twins.bits_eq : f.bits w' = f.bits w := by
  simp only [Binding.bits, h.read_eq hf.start_le]

theorem Twins.testBit_eq (bit : Nat) : f.testBit bit w' = f.testBit bit w := by
  simp only [Binding.testBit, h.bits_eq hf]

theorem Twins.testChoice_eq (name : String) : f.testChoice name w' = f.testChoice name w := by
  simp only [Binding.testChoice, h.testBit_eq hf]

theorem Twins.choices_eq : f.choices w' = f.choices w := by
  simp only [Binding.choices, h.bits_eq hf, h.version_eq]

end

theorem confined_requireVisible (f : Binding) : Confined a b f.requireVisible := by
  unfold Binding.requireVisible
  apply Confined.get_bind
  intro w w' h
  rw [h.version_eq]
  exact ⟨rfl, .ite (fun _ => .throw _) fun _ => .pure _⟩

theorem confined_writeText (hf : f.From a.start) (capacity : Nat) (characters : Bytes) :
    Confined a b (f.writeText capacity characters) := by
  unfold Binding.writeText
  apply Confined.guard
  intro _
  apply Confined.get_bind
  intro w w' h
  rw [h.check_eq]
  exact ⟨rfl, .bind (.discard (.lift _)) fun _ => .write hf.start_le _⟩

theorem confined_requireOptional (f : Field) : Confined a b f.requireOptional := by
  unfold Field.requireOptional
  apply Confined.get_bind
  intro w w' h
  rw [h.version_eq]
  exact ⟨rfl, .guard fun _ => .ite (fun _ => .throw _) fun _ => .pure _⟩

theorem confined_resetAt (f : Field) :
    ∀ offset, a.start ≤ offset → offset + f.reach < UInt64.size →
      Confined a b (f.resetAt offset) := by
  induction f using Field.first_member_induction with
  | step f ih =>
    intro offset ho hword
    rw [Field.resetAt_eq]
    apply Confined.bind (confined_requireOptional f)
    intro _
    unfold Field.storeAbsent
    cases hk : f.kind with
    | type t =>
      apply Confined.get_bind
      intro w w' h
      rw [h.check_eq]
      exact ⟨rfl, .bind (.discard (.lift _)) fun _ => .write ho _⟩
    | enum e => exact .write ho _
    | set s => exact .write ho _
    | composite c =>
      dsimp only
      cases hc : c.fields with
      | nil => exact .pure _
      | cons first rest =>
        obtain ⟨hplace, hreach⟩ := Field.wordOf_member hk (m := first) (by simp [hc]) hword
        dsimp only
        rw [hplace]
        exact ih c hk first (by simp [hc]) _ (Nat.le_add_right_of_le ho) hreach
    | group g => exact .throw _
    | data d => exact .throw _

theorem confined_setValue (hf : f.From a.start) (value : Value) :
    Confined a b (f.setValue value) := by
  unfold Binding.setValue
  apply Confined.lift_bind
  intro t _
  apply Confined.lift_bind
  intro constant? _
  cases constant? with
  | some constant => exact .ite (fun _ => .throw _) fun _ => .pure _
  | none =>
    apply Confined.bind (confined_requireVisible f)
    intro _
    cases value with
    | scalar scalar => exact .guard fun _ => .write hf.start_le _
    | text characters => exact .guard fun _ => confined_writeText hf _ _
    | array elements => exact .guard fun _ => .guard fun _ => .write hf.start_le _

theorem confined_reset (hf : f.From a.start) : Confined a b f.reset := by
  unfold Binding.reset
  exact .bind (confined_requireVisible f) fun _ =>
    confined_resetAt f.field f.offset hf.start_le hf.word

theorem confined_setScalar (hf : f.From a.start) {α : Type} [Element α] (value : α) :
    Confined a b (f.setScalar value) := by
  unfold Binding.setScalar
  apply Confined.lift_bind
  intro t _
  apply Confined.lift_bind
  intro constant? _
  cases constant? with
  | some constant => exact .ite (fun _ => .throw _) fun _ => .pure _
  | none => exact .bind (confined_requireVisible f) fun _ => .write hf.start_le _

theorem confined_setText (hf : f.From a.start) (characters : Bytes) :
    Confined a b (f.setText characters) := by
  unfold Binding.setText
  apply Confined.lift_bind
  intro capacity _
  apply Confined.lift_bind
  intro constant? _
  cases constant? with
  | some constant => exact .ite (fun _ => .throw _) fun _ => .pure _
  | none => exact .bind (confined_requireVisible f) fun _ => confined_writeText hf _ _

theorem confined_setArray (hf : f.From a.start) {α : Type} [Element α] (values : List α) :
    Confined a b (f.setArray values) := by
  unfold Binding.setArray
  apply Confined.lift_bind
  intro t _
  apply Confined.lift_bind
  intro constant? _
  cases constant? with
  | some constant => exact .ite (fun _ => .throw _) fun _ => .pure _
  | none => exact .bind (confined_requireVisible f) fun _ => .guard fun _ => .write hf.start_le _

theorem confined_setArrayElement (hf : f.From a.start) {α : Type} [Element α] (index : Nat)
    (value : α) : Confined a b (f.setArrayElement index value) := by
  unfold Binding.setArrayElement
  apply Confined.lift_bind
  intro t ht
  apply Confined.bind (confined_requireVisible f)
  intro _
  apply Confined.lift_bind
  intro _ hi
  apply Confined.lift_bind
  intro constant? _
  cases constant? with
  | some constant => exact .ite (fun _ => .throw _) fun _ => .pure _
  | none =>
    rw [hf.wordOf_element ht hi]
    exact .write (Nat.le_add_right_of_le hf.start_le) _

theorem confined_setEnumRaw (hf : f.From a.start) (raw : UInt64) :
    Confined a b (f.setEnumRaw raw) := by
  unfold Binding.setEnumRaw
  apply Confined.lift_bind
  intro e _
  apply Confined.lift_bind
  intro raw? _
  cases raw? with
  | some expected => exact .ite (fun _ => .throw _) fun _ => .pure _
  | none => exact .bind (confined_requireVisible f) fun _ => .write hf.start_le _

theorem confined_setEnumName (hf : f.From a.start) (name : String) :
    Confined a b (f.setEnumName name) := by
  unfold Binding.setEnumName
  apply Confined.lift_bind
  intro e _
  cases e.valueOf? name with
  | some raw => exact confined_setEnumRaw hf raw
  | none => exact .throw _

theorem confined_setBits (hf : f.From a.start) (set : BitSet) :
    Confined a b (f.setBits set) := by
  unfold Binding.setBits
  apply Confined.lift_bind
  intro s _
  apply Confined.lift_bind
  intro constant? _
  rcases constant? with _ | ⟨value⟩ | ⟨characters⟩
  · exact .bind (confined_requireVisible f) fun _ => .write hf.start_le _
  · exact .ite (fun _ => .throw _) fun _ => .pure _
  · exact .bind (confined_requireVisible f) fun _ => .write hf.start_le _

theorem confined_setBit (hf : f.From a.start) (bit : Nat) (on : Bool) :
    Confined a b (f.setBit bit on) := by
  unfold Binding.setBit
  apply Confined.bind (.query fun w w' h => h.bits_eq hf)
  intro set
  exact .lift_bind fun changed _ => confined_setBits hf changed

theorem confined_setChoice (hf : f.From a.start) (name : String) (on : Bool) :
    Confined a b (f.setChoice name on) := by
  unfold Binding.setChoice
  exact .lift_bind fun choice _ => confined_setBit hf choice.bit on

theorem FieldOperation.confined {α : Type} (hf : f.From a.start)
    (operation : FieldOperation α) :
    Confined a b (operation.run f) := by
  cases operation with
  | present => exact .query fun w w' h => h.present_eq hf
  | reset => exact confined_reset hf
  | value => exact .query fun w w' h => h.value_eq hf
  | setValue value => exact confined_setValue hf value
  | scalar => exact .query fun w w' h => h.scalar_eq hf α
  | scalarNull => exact .lift _
  | scalarLeast => exact .lift _
  | scalarGreatest => exact .lift _
  | scalar? β => exact .query fun w w' h => h.scalar?_eq hf β
  | setScalar value => exact confined_setScalar hf value
  | setScalar? value? =>
    cases value? with
    | some value => exact confined_setScalar hf value
    | none => exact confined_reset hf
  | textCapacity => exact .lift _
  | text => exact .query fun w w' h => h.text_eq hf
  | textString => exact .query fun w w' h => h.textString_eq hf
  | setText characters => exact confined_setText hf characters
  | arrayLength β => exact .lift _
  | array β => exact .query fun w w' h => h.array_eq hf β
  | arrayElement _ index => exact .query fun w w' h => h.arrayElement_eq hf α index
  | setArray values => exact confined_setArray hf values
  | setArrayElement index value => exact confined_setArrayElement hf index value
  | enumRaw => exact .query fun w w' h => h.enumRaw_eq hf
  | enumName? => exact .query fun w w' h => h.enumName?_eq hf
  | setEnumRaw raw => exact confined_setEnumRaw hf raw
  | setEnumName name => exact confined_setEnumName hf name
  | bits => exact .query fun w w' h => h.bits_eq hf
  | testBit bit => exact .query fun w w' h => h.testBit_eq hf bit
  | testChoice name => exact .query fun w w' h => h.testChoice_eq hf name
  | choices => exact .query fun w w' h => h.choices_eq hf
  | setBits set => exact confined_setBits hf set
  | setBit bit on => exact confined_setBit hf bit on
  | setChoice name on => exact confined_setChoice hf name on

end

namespace DataView

variable {a b : Surroundings} {w w' : Window} {d : DataView}

section

variable (hd : a.stop + d.definition.span < UInt64.size)

include hd

theorem wordOf_lengthMember (h : Twins a b w w') :
    wordOf (w.position + d.definition.lengthMember.offset) =
      w.position + d.definition.lengthMember.offset :=
  h.wordOf_position hd (Nat.le_max_left _ _)

theorem wordOf_headerLength (h : Twins a b w w') :
    wordOf (w.position + d.headerLength) = w.position + d.headerLength :=
  h.wordOf_position hd (Nat.le_max_right _ _)

theorem twins_length_eq (h : Twins a b w w') : d.length w' = d.length w := by
  have hle : a.start ≤ w.position + d.definition.lengthMember.offset :=
    Nat.le_add_right_of_le h.start_le
  simp only [DataView.length, h.position_eq, wordOf_lengthMember hd h, h.readScalar_eq hle]

theorem twins_payload_eq (h : Twins a b w w') : d.payload w' = d.payload w := by
  simp only [payload, h.position_eq, h.limit_eq, h.check_eq, twins_length_eq hd h]

end

theorem payload_start {start size : Nat} (h : d.payload w = .ok (start, size)) :
    start = wordOf (w.position + d.headerLength) := by
  unfold payload at h
  cases hlength : d.length w with
  | error e =>
    rw [hlength] at h
    cases h
  | ok n =>
    rw [hlength, Action.ok_bind] at h
    dsimp only at h
    split at h
    · cases h
    · cases hcheck : w.check (wordOf (w.position + d.headerLength)) (n * d.elementSize) with
      | error e =>
        rw [hcheck] at h
        cases h
      | ok stop =>
        rw [hcheck] at h
        cases h
        rfl

theorem writeLength_start {count size start : Nat} {w' : Window}
    (h : d.writeLength count size w = (.ok start, w')) :
    start = wordOf (w.position + d.headerLength) ∧
      w.position + (d.headerLength + size) ≤ w.limit := by
  simp only [writeLength, Action.bind_apply, Action.get_apply, Action.throw_bind] at h
  split at h
  · cases h
  · split at h
    · cases h
    · obtain ⟨_, _, hcheck, h⟩ := Action.bind_eq_ok h
      obtain ⟨_, _, _, h⟩ := Action.bind_eq_ok h
      cases h
      refine ⟨rfl, Nat.le_of_not_lt ?_⟩
      intro hlt
      rw [Action.discard_apply, Action.lift_apply, Window.check_of_lt hlt] at hcheck
      cases hcheck

section

variable (hd : a.stop + d.definition.span < UInt64.size)

include hd

theorem confined_skip : Confined a b d.skip := by
  unfold skip
  refine .ite (fun _ => .pure _) fun _ => ?_
  apply Confined.bind (.query fun w w' h => twins_length_eq hd h)
  intro count
  apply Confined.bind (.query fun w w' h => twins_payload_eq hd h)
  rintro ⟨start, size⟩
  exact .bind (.discard (.advance _)) fun _ => .pure _

theorem confined_value : Confined a b d.value := by
  unfold value
  refine .ite (fun _ => .pure _) fun _ => ?_
  intro w w' ht
  refine .bind_of (.query ht (twins_payload_eq hd ht)) ?_
  rintro ⟨start, size⟩ t t' hpayload htwins
  obtain ⟨hlook, rfl⟩ := Prod.mk.inj hpayload
  have hs : a.start ≤ start := by
    rw [payload_start hlook, wordOf_headerLength hd ht]
    exact Nat.le_add_right_of_le ht.start_le
  refine Confined.bind (.discard (.advance _)) (fun _ => ?_) _ _ htwins
  apply Confined.get_bind
  intro w w' h
  rw [h.read_eq hs]
  exact ⟨rfl, .lift _⟩

theorem confined_valueString : Confined a b d.valueString := by
  unfold valueString
  apply Confined.bind (confined_value hd)
  intro bytes
  cases Utf8.decode? bytes with
  | some characters => exact .pure _
  | none => exact .throw _

theorem confined_writeLength (count size : Nat) : Confined a b (d.writeLength count size) := by
  unfold writeLength
  apply Confined.get_bind
  intro w w' h
  have hle : a.start ≤ w.position + d.definition.lengthMember.offset :=
    Nat.le_add_right_of_le h.start_le
  simp only [h.version_eq, h.position_eq, h.check_eq, wordOf_lengthMember hd h]
  refine ⟨trivial, .guard fun _ => .guard fun _ => ?_⟩
  apply Confined.bind (.discard (.lift _))
  intro _
  exact .bind (.write hle _) fun _ => .pure _

theorem confined_writeLength_bind {count size : Nat} {rest : Nat → Action Window Unit}
    (hr : ∀ start, a.start ≤ start → start + size ≤ a.stop → Confined a b (rest start)) :
    Confined a b (d.writeLength count size >>= rest) := by
  intro w w' ht
  refine .bind_of (confined_writeLength hd count size w w' ht) ?_
  intro start t t' hlength htwins
  obtain ⟨hstart, hle⟩ := writeLength_start hlength
  rw [wordOf_headerLength hd ht] at hstart
  have hs := ht.start_le
  have hlimit := ht.limit_stop
  exact hr start (by omega) (by omega) t t' htwins

theorem confined_setValue (bytes : Bytes) : Confined a b (d.setValue bytes) := by
  unfold setValue
  refine .guard fun _ => confined_writeLength_bind hd ?_
  intro start hs _
  exact .bind (.write hs _) fun _ => .discard (.advance _)

omit hd in
theorem confined_writeElements {α : Type} [Element α] (hstop : a.stop < UInt64.size)
    (values : List α) : ∀ start, a.start ≤ start →
      start + values.length * Element.size α ≤ a.stop →
      Confined a b (writeElements start values) := by
  induction values with
  | nil => exact fun _ _ _ => .pure _
  | cons value rest ih =>
    intro start hs hle
    rw [List.length_cons, Nat.succ_mul] at hle
    refine .bind (.write hs _) fun _ => ?_
    rw [wordOf_of_lt (by omega)]
    exact ih _ (Nat.le_add_right_of_le hs) (by omega)

theorem confined_setValues {α : Type} [Element α] (values : List α) :
    Confined a b (d.setValues values) := by
  unfold setValues
  apply Confined.lift_bind
  intro _ _
  apply confined_writeLength_bind hd
  intro start hs hle
  exact .bind (confined_writeElements (by omega) values start hs hle) fun _ =>
    .discard (.advance _)

end

end DataView

theorem DataOperation.confined {a b : Surroundings} {α : Type} {d : DataView}
    (hd : a.stop + d.definition.span < UInt64.size) (operation : DataOperation α) :
    Confined a b (operation.run d) := by
  cases operation with
  | length => exact .query fun w w' h => DataView.twins_length_eq hd h
  | skip => exact DataView.confined_skip hd
  | value => exact DataView.confined_value hd
  | valueArray => exact .bind (DataView.confined_value hd) fun _ => .pure _
  | values β => exact .lift_bind fun _ _ => .bind (DataView.confined_value hd) fun _ => .pure _
  | valueString => exact DataView.confined_valueString hd
  | setValue bytes => exact DataView.confined_setValue hd bytes
  | setValues elements => exact DataView.confined_setValues hd elements

structure GroupView.Between (g : GroupView) (a : Surroundings) : Prop where
  header_le : a.start ≤ g.headerOffset
  le_header : g.headerOffset ≤ a.stop
  current_le : ∀ base ∈ g.current, a.start ≤ base ∧ base ≤ a.stop

theorem GroupOf.members_le_span (g : GroupDef) :
    g.blockLengthMember.offset ≤ g.span ∧ g.numInGroupMember.offset ≤ g.span := by
  rw [span]
  omega

theorem GroupView.confined_bind {a b : Surroundings} {g : GroupDef}
    (hg : a.stop + g.span < UInt64.size) (f : Field) (visible : Bool) :
    Confined a b (GroupView.bind f g visible) := by
  obtain ⟨hlength, hnumber⟩ := g.members_le_span
  unfold GroupView.bind
  apply Confined.get_bind
  intro w w' h
  have hs := h.start_le
  simp only [h.position_eq, h.check_eq, h.wordOf_position hg hlength, h.wordOf_position hg hnumber,
    h.readScalar_eq (Nat.le_add_right_of_le hs)]
  refine ⟨trivial, .ite (fun _ => .pure _) fun _ => ?_⟩
  apply Confined.bind (.discard (.lift _))
  intro _
  apply Confined.lift_bind
  intro blockLength _
  apply Confined.lift_bind
  intro count _
  exact .bind (.discard (.advance _)) fun _ => .pure _

theorem GroupView.between_bind {a : Surroundings} {f : Field} {g : GroupDef} {visible : Bool}
    {w w' : Window} {view : GroupView} (h : GroupView.bind f g visible w = (.ok view, w'))
    (hs : a.start ≤ w.position) (hp : w.position ≤ a.stop) : view.Between a := by
  obtain ⟨-, -, hcurrent, hheader⟩ := GroupView.bind_eq_ok h
  exact ⟨by rw [hheader]; exact hs, by rw [hheader]; exact hp, by simp [hcurrent]⟩

structure Iteration.Twins (a b : Surroundings) (it it' : Iteration) : Prop where
  group_eq : it'.group = it.group
  window : SimpleBinary.Twins a b it.window it'.window
  inside : it.group.Between a

namespace Iteration

variable {a b : Surroundings} {it it' : Iteration}

theorem Twins.onWindow {α : Type} {action : Action Window α} (h : Twins a b it it')
    (hc : Confined a b action) :
    Alike (Twins a b) (onWindow action) (onWindow action) it it' :=
  .onPart (hc _ _ h.window) fun _ _ ht => ⟨h.group_eq, ht, h.inside⟩

theorem window_of_onWindow {α : Type} {action : Action Window α} {r : α}
    (h : onWindow action it = (.ok r, it')) : action it.window = (.ok r, it'.window) := by
  rw [onWindow, Action.onPart_apply] at h
  obtain ⟨hresult, rfl⟩ := Prod.mk.inj h
  exact Prod.ext hresult rfl

theorem alike_next (h : Twins a b it it') : Alike (Twins a b) next next it it' := by
  unfold next
  apply Alike.get_bind
  rw [h.group_eq]
  refine .guard h fun _ => ?_
  apply Alike.bind_of (h.onWindow (.advance it.group.blockLength))
  intro base t t' hbase ht
  obtain ⟨-, rfl, -⟩ := Window.advance_eq_ok.mp (window_of_onWindow hbase)
  refine .bind (.change ⟨rfl, ht.window, h.inside.header_le, h.inside.le_header, ?_⟩)
    fun _ t t' ht => .pure ht it.window.position
  rintro _ ⟨⟩
  exact ⟨h.window.start_le, h.window.position_le⟩

theorem alike_resetCount (h : Twins a b it it')
    (hg : a.stop + it.group.definition.span < UInt64.size) (count : Nat) :
    Alike (Twins a b) (resetCount count) (resetCount count) it it' := by
  obtain ⟨hlength, hnumber⟩ := it.group.definition.members_le_span
  have hheader := h.inside.le_header
  unfold resetCount
  apply Alike.get_bind
  rw [h.group_eq, h.window.version_eq]
  refine .guard h fun _ => .guard h fun _ => .guard h fun _ => ?_
  apply Alike.bind
  · apply h.onWindow
    rw [wordOf_of_lt (by omega), wordOf_of_lt (by omega)]
    exact .bind (.write (Nat.le_add_right_of_le h.inside.header_le) _) fun _ =>
      .write (Nat.le_add_right_of_le h.inside.header_le) _
  · intro _ t t' ht
    exact .change ⟨rfl, ht.window, h.inside.header_le, h.inside.le_header, by simp⟩

theorem alike_repeatNext {visit : Nat → Action Window Unit} (hv : ∀ base, Confined a b (visit base))
    (n : Nat) : ∀ it it', Twins a b it it' →
      Alike (Twins a b) (repeatNext visit n) (repeatNext visit n) it it' := by
  induction n with
  | zero => exact fun _ _ h => .pure h _
  | succ n ih =>
    intro it it' h
    apply Alike.bind (alike_next h)
    intro base t t' ht
    exact .bind (ht.onWindow (hv base)) fun _ t t' ht => ih t t' ht

theorem alike_forRemaining {visit : Nat → Action Window Unit}
    (hv : ∀ base, Confined a b (visit base)) (h : Twins a b it it') :
    Alike (Twins a b) (forRemaining visit) (forRemaining visit) it it' := by
  apply Alike.get_bind
  rw [h.group_eq]
  exact alike_repeatNext hv _ it it' h

theorem confined_run {α : Type} {view : GroupView} {steps : Action Iteration α}
    (hg : view.Between a)
    (hs : ∀ it it', Twins a b it it' → Alike (Twins a b) steps steps it it') :
    Confined a b (run view steps) := by
  intro w w' h
  have hsteps := hs ⟨view, w⟩ ⟨view, w'⟩ ⟨rfl, h, hg⟩
  exact ⟨hsteps.result, hsteps.related.window⟩

end Iteration

theorem confined_skipFields {a b : Surroundings} :
    TableInduction (fun f => a.stop + f.span < UInt64.size → Confined a b f.skip)
      (fun fields => a.stop + spanFields fields < UInt64.size →
        Confined a b (skipFields fields)) := by
  apply TableInduction.of_fixed
  · intro f h h' _
    rw [Field.skip_of_fixed h h']
    exact .pure _
  · intro f g hk ih hword
    have hspan := Field.group_span_le hk
    have hfields : spanFields g.fields ≤ g.span := Nat.le_max_left _ _
    rw [Field.skip_group hk]
    intro w w' ht
    apply Alike.get_bind
    rw [ht.version_eq]
    refine .bind_of (GroupView.confined_bind (by omega) f _ w w' ht) ?_
    intro view t t' hbind htwins
    refine Iteration.confined_run (GroupView.between_bind hbind ht.start_le ht.position_le) ?_ _ _
      htwins
    exact fun it it' hit => Iteration.alike_forRemaining (fun _ => ih (by omega)) hit
  · intro f d hk hword
    have hspan := Field.data_span_le hk
    rw [Field.skip_data hk]
    apply Confined.get_bind
    intro w w' h
    rw [h.version_eq]
    exact ⟨rfl, .discard (DataView.confined_skip (show a.stop + d.span < UInt64.size by omega))⟩
  · exact fun _ => .pure _
  · intro f rest hf ih hword
    have hfirst : f.span ≤ spanFields (f :: rest) := Nat.le_max_left _ _
    have hrest : spanFields rest ≤ spanFields (f :: rest) := Nat.le_max_right _ _
    exact .bind (hf (by omega)) fun _ => ih (by omega)

end SimpleBinary
