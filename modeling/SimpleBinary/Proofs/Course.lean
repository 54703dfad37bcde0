import SimpleBinary.Market.Schema
import SimpleBinary.Proofs.Forward

namespace SimpleBinary

theorem Bytes.overwrite_again {bytes part : Bytes} {start : Nat}
    (h : start + part.length ≤ bytes.length) :
    (bytes.overwrite start part).overwrite start part = bytes.overwrite start part := by
  have hlength := length_overwrite h
  apply List.ext_getElem?
  intro i
  rw [getElem?_overwrite (by omega)]
  by_cases hi : i < start ∨ start + part.length ≤ i
  · rw [if_pos hi]
  · rw [if_neg hi, getElem?_overwrite h, if_neg hi]

namespace Message

variable {bytes bytes' : Bytes} {offset limit : Nat} {definition : MessageDef} {m : Message}

theorem le_of_writeFrame (h : writeFrame offset limit definition bytes = (.ok m, bytes')) :
    limit ≤ bytes.length ∧ limit ≤ Window.maxPosition ∧
      offset + (MessageHeader.size + definition.blockLength) ≤ limit := by
  obtain ⟨inner, hinner, -⟩ := writeFrame_eq_ok h
  obtain ⟨hle, -, hmax, -⟩ := wrapForDecode_eq_ok hinner
  obtain ⟨before, bytes₁, hbefore, h⟩ := Action.bind_eq_ok h
  cases hbefore
  obtain ⟨window, bytes₂, hlift, -⟩ := Action.bind_eq_ok h
  have hopen : Window.open? bytes limit offset definition.schema.version = .ok window :=
    (Prod.mk.inj hlift).1
  exact ⟨(Window.open?_eq_ok.mp hopen).1, hmax, by omega⟩

theorem writeFrame_again (h : writeFrame offset limit definition bytes = (.ok m, bytes')) :
    writeFrame offset limit definition bytes' = (.ok m, bytes') := by
  obtain ⟨hbytes, hmax, hl⟩ := le_of_writeFrame h
  have hpart : offset + (MessageHeader.ofMessage definition).toBytes.length ≤ bytes.length := by
    rw [MessageHeader.length_toBytes]
    omega
  rw [writeFrame_of_le hbytes hl hmax] at h
  obtain ⟨hm, rfl⟩ := Prod.mk.inj h
  rw [writeFrame_of_le (by rwa [Bytes.length_overwrite hpart]) hl hmax,
    Bytes.overwrite_again hpart, hm]

end Message

theorem Wrapping.wrap_again {wrapping : Wrapping} {definition : MessageDef}
    {bytes bytes' : Bytes} {m : Message} (h : wrapping.wrap definition bytes = (.ok m, bytes')) :
    wrapping.wrap definition bytes' = (.ok m, bytes') := by
  cases wrapping with
  | writeFrame offset limit => exact Message.writeFrame_again h
  | _ =>
    obtain ⟨hwrap, rfl⟩ := Prod.mk.inj h
    exact Prod.ext hwrap rfl

mutual

def Place.later (earlier : Nat) : Place → Place
  | .body => .body
  | .element group => .element (earlier + group)
  | .members spot => .members (spot.later earlier)

def Spot.later (earlier : Nat) : Spot → Spot
  | .header => .header
  | .field place selector => .field (place.later earlier) selector

end

def Operation.later {α : Type} (earlier : Nat) : Operation α → Operation α
  | .field spot operation => .field (spot.later earlier) operation
  | .data spot operation => .data (spot.later earlier) operation
  | .entry spot => .entry (spot.later earlier)
  | .group spot => .group (spot.later earlier)
  | .state g => .state (earlier + g)
  | .next g => .next (earlier + g)
  | .resetCount g count => .resetCount (earlier + g) count
  | .skipGroup g => .skipGroup (earlier + g)
  | .rewind => .rewind
  | .skip => .skip

def Step.later (earlier : Nat) (step : Step) : Step :=
  ⟨step.1, step.2.later earlier⟩

namespace Session

def after (s : Session) (earlier : List GroupView) : Session :=
  { s with groups := earlier ++ s.groups }

variable (s : Session) (earlier : List GroupView)

theorem groupAt_after (group : Nat) :
    (s.after earlier).groupAt (earlier.length + group) = s.groupAt group := by
  unfold groupAt after
  rw [List.getElem?_append_right (Nat.le_add_right _ _), Nat.add_sub_cancel_left]

mutual

theorem block_after : ∀ place,
    (s.after earlier).block (place.later earlier.length) = s.block place
  | .body => rfl
  | .element group => by
    simp only [Place.later, block, groupAt_after]
  | .members spot => by
    simp only [Place.later, block, bind_after spot]

theorem bind_after : ∀ spot,
    (s.after earlier).bind (spot.later earlier.length) = s.bind spot
  | .header => rfl
  | .field place selector => by
    simp only [Spot.later, bind, block_after place]
    rfl

end

theorem iterate_after {α : Type} (group : Nat) (steps : Action Iteration α) :
    iterate (earlier.length + group) steps (s.after earlier) =
      ((iterate group steps s).1, (iterate group steps s).2.after earlier) := by
  simp only [iterate, Action.bind_apply, Action.get_apply, Action.lift_apply, groupAt_after]
  cases s.groupAt group with
  | error e => rfl
  | ok view =>
    have hset (it : Iteration) : (earlier ++ s.groups).set (earlier.length + group) it.group =
        earlier ++ s.groups.set group it.group := by
      rw [List.set_append_right _ _ (Nat.le_add_right _ _), Nat.add_sub_cancel_left]
    simp only [Action.onPart_apply, after, withWindow, hset]
    rfl

end Session

theorem Operation.run_later {α : Type} (operation : Operation α) (s : Session)
    (earlier : List GroupView) :
    (operation.later earlier.length).run (s.after earlier) =
      ((operation.run s).1, (operation.run s).2.after earlier) := by
  cases operation with
  | field spot operation =>
    simp only [later, run, Action.bind_apply, Action.get_apply, Action.lift_apply,
      Session.bind_after]
    cases s.bind spot <;> rfl
  | data spot operation =>
    simp only [later, run, Action.bind_apply, Action.get_apply, Action.lift_apply,
      Session.bind_after]
    cases s.bind spot with
    | error e => rfl
    | ok b =>
      dsimp only
      cases DataView.ofBinding b <;> rfl
  | entry spot =>
    simp only [later, run, Action.bind_apply, Action.get_apply, Action.lift_apply,
      Session.bind_after]
    cases s.bind spot <;> rfl
  -- The view is put behind all groups, so that its number is later by the earlier ones.
  | group spot =>
    simp only [later, run, Action.bind_apply, Action.get_apply, Action.lift_apply,
      Session.bind_after]
    cases s.bind spot with
    | error e => rfl
    | ok b =>
      have hwindow : (s.after earlier).window = s.window := rfl
      simp only [Session.onWindow, Action.onPart_apply, hwindow]
      cases GroupView.ofBinding b s.window with
      | mk result w =>
        cases result with
        | error e => rfl
        | ok view =>
          simp only [Action.modify_apply, Action.pure_apply, Session.after, Session.withWindow,
            List.append_assoc]
  | state group =>
    simp only [later, run, Action.bind_apply, Action.get_apply, Action.lift_apply,
      Session.groupAt_after]
  | next group => exact s.iterate_after earlier group _
  | resetCount group count => exact s.iterate_after earlier group _
  | skipGroup group => exact s.iterate_after earlier group _
  | rewind => rfl
  | skip => rfl

theorem Session.runSteps_later (steps : List Step) (earlier : List GroupView) :
    ∀ s : Session, runSteps (steps.map (Step.later earlier.length)) (s.after earlier) =
      ((runSteps steps s).1, (runSteps steps s).2.after earlier) := by
  induction steps with
  | nil => exact fun s => rfl
  | cons step rest ih =>
    obtain ⟨α, operation⟩ := step
    intro s
    rw [List.map_cons, Step.later, runSteps_cons, runSteps_cons, operation.run_later, ih]
    rfl

theorem Session.message_rewound {m : Message} (hm : m.Placed)
    (hp : m.position = m.offset + m.blockLength) {reads : List Step}
    (h : ∀ step ∈ reads, step.2.readsOnly) :
    (runSteps (reads ++ [⟨Unit, .rewind⟩]) ⟨m, []⟩).2.message = m := by
  have hframe : (runSteps reads ⟨m, []⟩).2.message.frame = m.frame := frame_runSteps reads h _
  have hself : m.rewind = m := by
    rw [Message.rewind_of_placed hm, ← hp]
    rfl
  rw [runSteps_append]
  exact (Message.rewind_of_frame hframe hm.stop_le).trans hself

/-- Whatever is done to a wrapped message, the position stays between the end of the fixed part and
the limit, goes back in rewinding only, and rewinding after reads makes the message as it was
wrapped. -/
theorem Wrapping.course_of_uses {wrapping : Wrapping} {definition : MessageDef}
    {bytes bytes' : Bytes} {m : Message}
    (h : wrapping.wrap definition bytes = (.ok m, bytes')) :
    (∀ steps s, s = (Session.runSteps steps ⟨m, []⟩).2 →
      s.message.Placed ∧ m.Continues s.message ∧
      (∀ {α : Type} (operation : Operation α), operation.rewinds = false →
        s.message.position ≤ (operation.run s).2.message.position) ∧
      ∃ t, Operation.rewind.run s = (.ok ⟨⟩, t) ∧
        t.message.position = m.offset + m.blockLength ∧
        t.window.bytes = s.window.bytes ∧ t.groups = s.groups) ∧
    ∀ reads s, (∀ step ∈ reads, step.2.readsOnly) →
      s = (Session.runSteps (reads ++ [⟨Unit, .rewind⟩]) ⟨m, []⟩).2 →
      s.message = m ∧
      wrapping.wrap definition s.window.bytes = (.ok m, s.window.bytes) ∧
      ∀ steps, Session.runSteps (steps.map (Step.later s.groups.length)) s =
        ((Session.runSteps steps ⟨m, []⟩).1,
          (Session.runSteps steps ⟨m, []⟩).2.after s.groups) := by
  obtain ⟨hplaced, hposition, -, rfl⟩ := placed_of_wrap h
  constructor
  · rintro steps s rfl
    obtain ⟨hcontinues, hplaced'⟩ := Session.course_of_runSteps steps (s := ⟨m, []⟩) hplaced
    refine ⟨hplaced', hcontinues, ?_, ?_⟩
    · intro α operation hr
      exact (operation.onward hr hplaced'.sound).2.position_le
    · refine ⟨_, Session.rewind_run _, ?_, ?_, rfl⟩
      · rw [Message.rewind_of_placed hplaced']
        exact hcontinues.start_eq
      · simp only [Session.window, Message.rewind_of_placed hplaced']
  · rintro reads s hreads rfl
    have hmessage := Session.message_rewound hplaced hposition hreads
    generalize (Session.runSteps (reads ++ [⟨Unit, .rewind⟩]) ⟨m, []⟩).2 = s at hmessage
    obtain ⟨message, groups⟩ := s
    obtain rfl : message = m := hmessage
    refine ⟨rfl, Wrapping.wrap_again h, ?_⟩
    intro steps
    have hafter := Session.runSteps_later steps groups ⟨message, []⟩
    rwa [Session.after, List.append_nil] at hafter

theorem Wrapping.course_of_uses_snapshot :
    ∃ bytes m s, bytes = List.replicate 28 0 ++ [33, 0, 2] ++ List.replicate 40 0 ∧
      (Wrapping.decode 0 71 28 2).wrap Market.Snapshot.definition bytes = (.ok m, bytes) ∧
      s = (Session.runSteps [⟨Nat, .skip⟩] ⟨m, []⟩).2 ∧
      -- The second element of the group is cut off.
      (Operation.skip.run ⟨m, []⟩).1 = .error (.bufferTooShort 97 71) ∧
      s.message.position = 64 ∧ s.message.Placed ∧ m.Continues s.message ∧
      (Session.runSteps [⟨Nat, .skip⟩, ⟨Unit, .rewind⟩] ⟨m, []⟩).2.message = m := by
  obtain ⟨bytes, hbytes⟩ :
      ∃ bytes : Bytes, bytes = List.replicate 28 0 ++ [33, 0, 2] ++ List.replicate 40 0 :=
    ⟨_, rfl⟩
  have hwrap : (Wrapping.decode 0 71 28 2).wrap Market.Snapshot.definition bytes =
      (.ok ⟨⟨bytes, 71, 28, 2, by decide⟩, Market.Snapshot.definition, 0, none, 28⟩, bytes) := by
    rw [hbytes]
    rfl
  obtain ⟨hruns, hreads⟩ := course_of_uses hwrap
  obtain ⟨hplaced, hcontinues, -⟩ := hruns [⟨Nat, .skip⟩] _ rfl
  obtain ⟨hmessage, -⟩ := hreads [⟨Nat, .skip⟩] _ (by simp [Operation.readsOnly]) rfl
  refine ⟨bytes, _, _, hbytes, hwrap, rfl, ?_, ?_, hplaced, hcontinues, hmessage⟩
  · rw [hbytes]
    rfl
  · rw [hbytes]
    rfl

end SimpleBinary
