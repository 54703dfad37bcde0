import SimpleBinary.Proofs.Edits

namespace SimpleBinary

structure Window.Onward (kept : Nat) (w t : Window) : Prop where
  version_eq : t.version = w.version
  limit_eq : t.limit = w.limit
  length_eq : t.bytes.length = w.bytes.length
  position_le : w.position ≤ t.position
  inside : t.position ≤ t.limit
  getElem?_eq (i : Nat) (h : i < kept) : t.bytes[i]? = w.bytes[i]?

namespace Window

variable {w t t' : Window}

theorem Onward.refl (hw : w.Sound) (kept : Nat) : w.Onward kept w :=
  ⟨rfl, rfl, rfl, Nat.le_refl _, hw.position_le, fun _ _ => rfl⟩

theorem Onward.sound {kept : Nat} (h : w.Onward kept t) (hw : w.Sound) : t.Sound :=
  ⟨h.inside, by rw [h.limit_eq, h.length_eq]; exact hw.limit_le⟩

theorem Onward.trans {kept : Nat} (h : w.Onward kept t) (h' : t.Onward kept t') :
    w.Onward kept t' where
  version_eq := h'.version_eq.trans h.version_eq
  limit_eq := h'.limit_eq.trans h.limit_eq
  length_eq := h'.length_eq.trans h.length_eq
  position_le := Nat.le_trans h.position_le h'.position_le
  inside := h'.inside
  getElem?_eq i hi := (h'.getElem?_eq i hi).trans (h.getElem?_eq i hi)

theorem Onward.mono {kept kept' : Nat} (h : w.Onward kept t) (hle : kept' ≤ kept) :
    w.Onward kept' t :=
  { h with getElem?_eq := fun i hi => h.getElem?_eq i (Nat.lt_of_lt_of_le hi hle) }

theorem onward_write (hw : w.Sound) {kept start : Nat} (hk : kept ≤ start) (part : Bytes) :
    w.Onward kept (write start part w).2 := by
  by_cases hle : start + part.length ≤ w.limit
  · have hlength := Nat.le_trans hle hw.limit_le
    rw [write_of_le hle]
    refine ⟨rfl, rfl, Bytes.length_overwrite hlength, Nat.le_refl _, hw.position_le, ?_⟩
    intro i hi
    rw [written_bytes, Bytes.getElem?_overwrite hlength, if_pos (.inl (by omega))]
  · rw [write_of_lt (Nat.lt_of_not_le hle)]
    exact .refl hw kept

theorem onward_write_write (hw : w.Sound) {kept start start' : Nat} (hk : kept ≤ start)
    (hk' : kept ≤ start') (part part' : Bytes) :
    w.Onward kept ((do write start part; write start' part' : Action Window Unit) w).2 := by
  have hfirst := onward_write hw hk part
  rw [Action.bind_apply]
  cases hwrite : write start part w with
  | mk result v =>
    rw [hwrite] at hfirst
    cases result with
    | ok _ => exact hfirst.trans (onward_write (hfirst.sound hw) hk' part')
    | error e => exact hfirst

def Forth (w t : Window) : Prop :=
  w.Sound → w.Onward 0 t

instance : IsPreorder Window Forth where
  refl _ hw := .refl hw 0
  trans _ _ _ h h' hw := (h hw).trans (h' ((h hw).sound hw))

theorem forth_advance (size : Nat) : Leads Forth (advance size) := by
  intro w hw
  by_cases hle : w.position + size ≤ w.limit
  · rw [advance_of_le hle]
    exact ⟨rfl, rfl, rfl, Nat.le_add_right _ _, hle, fun _ _ => rfl⟩
  · rw [advance_of_lt (Nat.lt_of_not_le hle)]
    exact .refl hw 0

theorem forth_write (start : Nat) (part : Bytes) : Leads Forth (write start part) :=
  fun _ hw => onward_write hw (Nat.zero_le _) part

end Window

section

variable {r : Window → Window → Prop} [IsPreorder Window r]
  (hw : ∀ start part, Leads r (Window.write start part))

include hw

theorem FieldOperation.leads {α : Type} (operation : FieldOperation α) (b : Binding) :
    Leads r (operation.run b) := by
  intro w
  rw [run_snd]
  rcases operation.edit b w.version (b.bits w) with e | _ | edit
  · exact refl_of r w
  · exact refl_of r w
  · rw [Binding.settle_some]
    exact hw _ _ w

theorem Iteration.keeps_window_resetCount (count : Nat) : Leads (Windows r) (resetCount count) := by
  unfold resetCount
  apply Leads.get_bind
  intro it
  refine .guard (.guard (.guard ?_))
  refine Leads.bind (keeps_window_onWindow ?_) fun _ => .change fun it => refl_of r it.window
  exact .bind (hw _ _) fun _ => hw _ _

variable (ha : ∀ size, Leads r (Window.advance size))

namespace DataView

variable {d : DataView}

theorem keeps_writeLength (count size : Nat) : Leads r (d.writeLength count size) := by
  unfold writeLength
  apply Leads.get_bind
  intro w
  refine .guard (.guard ?_)
  refine Leads.bind (.discard (.lift _)) fun _ => ?_
  exact .bind (hw _ _) fun _ => .pure _

theorem keeps_writeElements {α : Type} [Element α] (values : List α) :
    ∀ start, Leads r (writeElements start values) := by
  induction values with
  | nil => exact fun _ => .pure _
  | cons value rest ih =>
    intro start
    exact .bind (hw _ _) fun _ => ih _

include ha

theorem keeps_setValue (bytes : Bytes) : Leads r (d.setValue bytes) := by
  unfold setValue
  refine .guard ?_
  refine Leads.bind (keeps_writeLength hw _ _) fun start => ?_
  exact .bind (hw _ _) fun _ => .discard (ha _)

theorem keeps_setValues {α : Type} [Element α] (values : List α) :
    Leads r (d.setValues values) := by
  unfold setValues
  refine Leads.bind (.lift _) fun _ => ?_
  refine Leads.bind (keeps_writeLength hw _ _) fun start => ?_
  exact .bind (keeps_writeElements hw values start) fun _ => .discard (ha _)

end DataView

include ha

theorem DataOperation.leads {α : Type} (operation : DataOperation α) (d : DataView) :
    Leads r (operation.run d) := by
  cases operation with
  | length => exact .query _
  | skip => exact DataView.keeps_skip ha
  | value => exact DataView.keeps_value ha
  | valueArray => exact .bind (DataView.keeps_value ha) fun _ => .pure _
  | values => exact .bind (.lift _) fun _ => .bind (DataView.keeps_value ha) fun _ => .pure _
  | valueString => exact DataView.keeps_valueString ha
  | setValue bytes => exact DataView.keeps_setValue hw ha bytes
  | setValues elements => exact DataView.keeps_setValues hw ha elements

end

namespace Session

def Forth (s t : Session) : Prop :=
  t.message = { s.message with window := t.window } ∧ s.window.Forth t.window

instance : IsPreorder Session Forth where
  refl s := ⟨rfl, refl_of _ s.window⟩
  trans s t u h h' := by
    refine ⟨?_, trans_of _ h.2 h'.2⟩
    rw [h'.1, h.1]

theorem forth_onWindow {α : Type} {action : Action Window α} (h : Leads Window.Forth action) :
    Leads Forth (onWindow action) :=
  .onPart h fun _ _ hw => ⟨rfl, hw⟩

theorem forth_iterate {α : Type} {steps : Action Iteration α}
    (h : Leads (Iteration.Windows Window.Forth) steps) (group : Nat) :
    Leads Forth (iterate group steps) := by
  unfold iterate
  apply Leads.get_bind
  intro s
  refine Leads.bind (.lift _) fun view => ?_
  exact fun t => ⟨rfl, h ⟨view, t.window⟩⟩

end Session

/-- Whether the operation begins anew at the end of the fixed part. -/
def Operation.rewinds {α : Type} : Operation α → Bool
  | .rewind | .skip => true
  | _ => false

theorem Operation.forth {α : Type} {operation : Operation α} (h : operation.rewinds = false) :
    Leads Session.Forth operation.run := by
  cases operation with
  | rewind | skip => cases h
  | field spot operation =>
    refine .get_bind fun s => .bind (.lift _) fun b => ?_
    exact Session.forth_onWindow (operation.leads Window.forth_write b)
  | data spot operation =>
    refine .get_bind fun s => .bind (.lift _) fun b => .bind (.lift _) fun view => ?_
    exact Session.forth_onWindow (operation.leads Window.forth_write Window.forth_advance view)
  | entry spot =>
    refine .get_bind fun s => .bind (.lift _) fun b => ?_
    exact Session.forth_onWindow (b.keeps_entry Window.forth_advance)
  | group spot =>
    refine .get_bind fun s => .bind (.lift _) fun b => ?_
    refine Leads.bind (Session.forth_onWindow
      (GroupView.keeps_ofBinding Window.forth_advance b)) fun view => ?_
    exact .bind (.change fun s => ⟨rfl, refl_of _ s.window⟩) fun _ => .pure _
  | state group => exact .get_bind fun _ => .lift _
  | next group =>
    exact Session.forth_iterate (Iteration.keeps_window_next Window.forth_advance) group
  | resetCount group count =>
    exact Session.forth_iterate (Iteration.keeps_window_resetCount Window.forth_write count) group
  | skipGroup group =>
    refine Session.forth_iterate ?_ group
    exact .get_bind fun _ => Iteration.keeps_window_forRemaining Window.forth_advance fun _ =>
      (keeps_skipFields Window.forth_advance).table _

theorem Operation.onward {α : Type} {operation : Operation α} (h : operation.rewinds = false)
    {s : Session} (hw : s.window.Sound) :
    (operation.run s).2.message = { s.message with window := (operation.run s).2.window } ∧
      s.window.Onward 0 (operation.run s).2.window :=
  ⟨(Operation.forth h s).1, (Operation.forth h s).2 hw⟩

namespace Message

structure Placed (m : Message) : Prop where
  start_le : m.offset + m.blockLength ≤ m.position
  sound : m.window.Sound

/-- The same message with its position anywhere and with other bytes, as many as before. -/
structure Continues (m m' : Message) : Prop where
  same : m' = { m with window := m'.window }
  version_eq : m'.version = m.version
  limit_eq : m'.window.limit = m.window.limit
  length_eq : m'.window.bytes.length = m.window.bytes.length

namespace Continues

variable {m m' m'' : Message}

theorem refl (m : Message) : m.Continues m :=
  ⟨rfl, rfl, rfl, rfl⟩

theorem trans (h : m.Continues m') (h' : m'.Continues m'') : m.Continues m'' := by
  refine ⟨?_, h'.version_eq.trans h.version_eq, h'.limit_eq.trans h.limit_eq,
    h'.length_eq.trans h.length_eq⟩
  rw [h'.same, h.same]

theorem start_eq (h : m.Continues m') : m'.offset + m'.blockLength = m.offset + m.blockLength := by
  rw [h.same]

theorem of_onward {w : Window} {kept : Nat} (h : m.window.Onward kept w) :
    m.Continues { m with window := w } :=
  ⟨rfl, h.version_eq, h.limit_eq, h.length_eq⟩

end Continues

variable {m : Message}

theorem Placed.stop_le (h : m.Placed) : m.offset + m.blockLength ≤ m.window.limit :=
  Nat.le_trans h.start_le h.sound.position_le

theorem Placed.of_onward (h : m.Placed) {w : Window} {kept : Nat} (hw : m.window.Onward kept w) :
    Placed { m with window := w } :=
  ⟨Nat.le_trans h.start_le hw.position_le, hw.sound h.sound⟩

theorem rewind_of_placed (h : m.Placed) :
    m.rewind = { m with window := { m.window with position := m.offset + m.blockLength } } := by
  rw [rewind, Window.seek_of_le h.stop_le]

theorem placed_rewind (h : m.Placed) : m.rewind.Placed := by
  rw [rewind_of_placed h]
  exact ⟨Nat.le_refl _, h.stop_le, h.sound.limit_le⟩

theorem continues_rewind (h : m.Placed) : m.Continues m.rewind := by
  rw [rewind_of_placed h]
  exact ⟨rfl, rfl, rfl, rfl⟩

theorem skip_snd (m : Message) : (skip m).2 =
    { m.rewind with window := (skipFields m.definition.fields m.rewind.window).2 } := by
  have hfields : m.rewind.definition = m.definition := rfl
  simp only [skip, Action.bind_apply, Action.modify_apply, Action.get_apply, onWindow,
    Action.onPart_apply, hfields]
  cases skipFields m.definition.fields m.rewind.window with
  | mk result w => cases result <;> rfl

end Message

namespace Session

variable {s : Session}

theorem rewind_run (s : Session) :
    Operation.rewind.run s = (.ok ⟨⟩, { s with message := s.message.rewind }) := rfl

theorem course_of_skip (h : s.message.Placed) :
    s.message.Continues (Message.skip s.message).2 ∧ (Message.skip s.message).2.Placed := by
  have hplaced := Message.placed_rewind h
  have honward := (keeps_skipFields Window.forth_advance).table s.message.definition.fields
    s.message.rewind.window hplaced.sound
  rw [Message.skip_snd]
  exact ⟨(Message.continues_rewind h).trans (.of_onward honward), hplaced.of_onward honward⟩

theorem course_of_operation {α : Type} (operation : Operation α) (h : s.message.Placed) :
    s.message.Continues (operation.run s).2.message ∧ (operation.run s).2.message.Placed := by
  cases hr : operation.rewinds with
  | false =>
    obtain ⟨hmessage, honward⟩ := operation.onward hr h.sound
    rw [hmessage]
    exact ⟨.of_onward honward, h.of_onward honward⟩
  | true =>
    cases operation with
    | rewind => exact ⟨Message.continues_rewind h, Message.placed_rewind h⟩
    | skip => exact course_of_skip h
    | _ => cases hr

theorem course_of_runSteps (steps : List Step) :
    ∀ {s : Session}, s.message.Placed →
      s.message.Continues (runSteps steps s).2.message ∧ (runSteps steps s).2.message.Placed := by
  induction steps with
  | nil => exact fun h => ⟨.refl _, h⟩
  | cons step rest ih =>
    obtain ⟨α, operation⟩ := step
    intro s h
    obtain ⟨hfirst, hplaced⟩ := course_of_operation operation h
    obtain ⟨hrest, hplaced'⟩ := ih hplaced
    exact ⟨hfirst.trans hrest, hplaced'⟩

theorem runSteps_append (steps rest : List Step) (s : Session) :
    (runSteps (steps ++ rest) s).2 = (runSteps rest (runSteps steps s).2).2 := by
  induction steps generalizing s with
  | nil => rfl
  | cons step steps ih => exact ih _

end Session

theorem Wrapping.placed_of_wrap {wrapping : Wrapping} {definition : MessageDef}
    {bytes bytes' : Bytes} {m : Message} (h : wrapping.wrap definition bytes = (.ok m, bytes')) :
    m.Placed ∧ m.position = m.offset + m.blockLength ∧ m.window.limit = wrapping.limit ∧
      m.window.bytes = bytes' := by
  obtain ⟨offset, blockLength, version, headerOffset, hle, hlimit, hmax, rfl⟩ := wrap_eq_ok h
  exact ⟨⟨Nat.le_refl _, hle, hlimit⟩, rfl, rfl, rfl⟩

end SimpleBinary
