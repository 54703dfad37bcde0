import SimpleBinary.Proofs.Accessors

namespace SimpleBinary

/-! ### Data -/

namespace DataView

variable {d : DataView} {w w' : Window} {e : Error}

theorem payload_eq_error (hv : d.visible = true) (h : d.payload w = .error e) :
    ∃ required, e = .bufferTooShort required w.limit := by
  by_cases hstop : d.lengthStop w ≤ w.limit
  · have hlength := length_of_le hv hstop
    by_cases hover : Window.maxPosition < d.announced w * d.elementSize
    · rw [payload_of_over hlength hover] at h
      cases h
      exact ⟨_, rfl⟩
    by_cases hle : wordOf (w.position + d.headerLength) + d.announced w * d.elementSize ≤ w.limit
    · rw [payload_of_le hlength (Nat.le_of_not_lt hover) hle] at h
      cases h
    · rw [payload_of_lt hlength (Nat.lt_of_not_le hle)] at h
      cases h
      exact ⟨_, rfl⟩
  · rw [payload_of_length_error (length_of_lt hv (Nat.lt_of_not_le hstop))] at h
    cases h
    exact ⟨_, rfl⟩

theorem value_cases (d : DataView) (w : Window) :
    (∃ required, d.value w = (.error (.bufferTooShort required w.limit), w)) ∨
      (d.value w = (.ok [], w)) ∨
      ∃ start size, d.payload w = .ok (start, size) ∧
        d.value w = (.ok (w.bytes.slice start size), w.moved (wordOf (d.headerLength + size))) := by
  cases hv : d.visible with
  | false =>
    right; left
    simp only [value, hv, Bool.not_false, if_true, Action.pure_apply]
  | true =>
    cases hp : d.payload w with
    | error e =>
      obtain ⟨required, rfl⟩ := payload_eq_error hv hp
      exact .inl ⟨required, value_of_error hv hp⟩
    | ok place =>
      obtain ⟨start, size⟩ := place
      have hvalue := value_of_payload hv hp
      by_cases hstep : w.position + wordOf (d.headerLength + size) ≤ w.limit
      · rw [Window.advance_of_le hstep] at hvalue
        exact .inr (.inr ⟨start, size, rfl, hvalue⟩)
      · rw [Window.advance_of_lt (Nat.lt_of_not_le hstep)] at hvalue
        exact .inl ⟨_, hvalue⟩

theorem value_eq_error (h : d.value w = (.error e, w')) :
    w' = w ∧ ∃ required, e = .bufferTooShort required w.limit := by
  rcases value_cases d w with ⟨required, hvalue⟩ | hvalue | ⟨start, size, -, hvalue⟩
  · rw [hvalue] at h
    cases h
    exact ⟨rfl, required, rfl⟩
  · rw [hvalue] at h
    cases h
  · rw [hvalue] at h
    cases h

theorem atomic_value : Atomic id d.value w := by
  intro e he
  exact (value_eq_error (Prod.ext he rfl)).1

theorem atomic_skip : Atomic id d.skip w := by
  unfold skip
  refine .ite (fun _ => .of_keeps (.pure _)) fun _ => ?_
  apply Atomic.bind (.query _)
  intro count v _
  apply Atomic.bind (.query _)
  intro place v' _
  exact .bind_ok (.discard (Window.atomic_advance _)) fun _ t _ => ⟨_, t, rfl⟩

theorem atomic_valueArray : Atomic id d.valueArray w :=
  .bind_ok atomic_value fun _ t _ => ⟨_, t, rfl⟩

theorem atomic_values (α : Type) [Element α] : Atomic id (d.values α) w :=
  .lift_bind fun _ _ => .bind_ok atomic_value fun _ t _ => ⟨_, t, rfl⟩

theorem ne_of_undecoded {payload : Bytes} (h : Utf8.decode? payload = none) : payload ≠ [] := by
  rintro rfl
  cases h

theorem position_of_value_ne {payload : Bytes} (h : d.value w = (.ok payload, w')) (hne : w' ≠ w) :
    w.position < w'.position := by
  rcases value_cases d w with ⟨required, hvalue⟩ | hvalue | ⟨start, size, -, hvalue⟩
  · rw [hvalue] at h
    cases h
  · rw [hvalue] at h
    cases h
    exact absurd rfl hne
  · rw [hvalue] at h
    cases h
    have hstep : wordOf (d.headerLength + size) ≠ 0 := by
      intro hzero
      rw [hzero] at hne
      exact hne (w.moved_zero)
    rw [Window.moved_position]
    omega

theorem value_passes {payload : Bytes} (h : d.value w = (.ok payload, w')) (hne : payload ≠ [])
    (hword : w.position + d.headerLength < UInt64.size) : w' ≠ w := by
  rcases value_cases d w with ⟨required, hvalue⟩ | hvalue | ⟨start, size, hpayload, hvalue⟩
  · rw [hvalue] at h
    cases h
  · rw [hvalue] at h
    cases h
    exact absurd rfl hne
  · rw [hvalue] at h
    cases h
    have hsize : size ≠ 0 := by
      rintro rfl
      exact hne List.take_zero
    obtain ⟨-, -, hstart, -, -, hle⟩ := payload_eq_ok hpayload
    rw [wordOf_of_lt hword] at hstart
    intro hsame
    have hposition := congrArg Window.position hsame
    rw [Window.moved_position, Window.wordOf_of_le (w := w) (by omega)] at hposition
    omega

theorem valueString_eq_error (h : d.valueString w = (.error e, w')) :
    (w' = w ∧ ∃ required, e = .bufferTooShort required w.limit) ∨
      (e = .invalidText d.field.name ∧
        ∃ payload, d.value w = (.ok payload, w') ∧ Utf8.decode? payload = none) := by
  unfold valueString at h
  cases hvalue : d.value w with
  | mk result v =>
    cases result with
    | error e' =>
      rw [Action.bind_of_error hvalue] at h
      cases h
      exact .inl (value_eq_error hvalue)
    | ok payload =>
      rw [Action.bind_of_ok hvalue] at h
      cases hdecode : Utf8.decode? payload with
      | some characters =>
        rw [hdecode] at h
        cases h
      | none =>
        rw [hdecode] at h
        cases h
        exact .inr ⟨rfl, payload, rfl, hdecode⟩

end DataView

namespace DataOperation

def decodes {α : Type} : DataOperation α → Bool
  | .valueString => true
  | _ => false

theorem atomic_window {α : Type} {operation : DataOperation α} (hl : operation.Lawful)
    (hd : operation.decodes = false) (d : DataView) (w : Window) :
    Atomic id (operation.run d) w := by
  cases operation with
  | length => exact .of_keeps (.query _)
  | skip => exact DataView.atomic_skip
  | value => exact DataView.atomic_value
  | valueArray => exact DataView.atomic_valueArray
  | values α => exact DataView.atomic_values α
  | valueString => cases hd
  | setValue bytes => exact DataView.atomic_setValue bytes
  | setValues elements =>
    have : LawfulElement _ := hl
    exact DataView.atomic_setValues elements

/-- An operation on data that fails leaves everything as it was, unless it is reading a payload as a
string that is none: then the position is behind the payload, where the header does not wrap. -/
theorem failed_leaves_window (d : DataView) (w w' : Window) {α : Type}
    (operation : DataOperation α) (hl : operation.Lawful) (e : Error)
    (h : operation.run d w = (.error e, w')) :
    w'.bytes = w.bytes ∧ (operation.decodes = false → w' = w) ∧
      (operation.decodes = true → (e ≠ .invalidText d.field.name → w' = w) ∧
        (w.position + d.headerLength < UInt64.size →
          (w' = w ↔ e ≠ .invalidText d.field.name)) ∧
        (w' ≠ w → w.position < w'.position ∧
          ∃ payload, d.value w = (.ok payload, w') ∧ Utf8.decode? payload = none)) := by
  refine ⟨(operation.atomic hl).after h, fun hd => (atomic_window hl hd d w).after h, ?_⟩
  intro hd
  cases operation with
  | valueString =>
    rcases DataView.valueString_eq_error h with ⟨rfl, required, rfl⟩ | ⟨rfl, payload, hvalue, hp⟩
    · exact ⟨fun _ => rfl, fun _ => ⟨fun _ => by rintro ⟨⟩, fun _ => rfl⟩,
        fun hne => absurd rfl hne⟩
    · refine ⟨fun hne => absurd rfl hne, ?_, fun hne =>
        ⟨DataView.position_of_value_ne hvalue hne, payload, hvalue, hp⟩⟩
      intro hword
      have hmoved := DataView.value_passes hvalue (DataView.ne_of_undecoded hp) hword
      exact ⟨fun hsame => absurd hsame hmoved, fun hne => absurd rfl hne⟩
  | _ => cases hd

theorem failed_leaves_window_memo :
    ∃ e w', (setValue [104, 105, 106] : DataOperation Unit).run
        ⟨Market.Snapshot.Fields.memo, Market.Snapshot.memoData, true⟩
        ⟨List.replicate 8 0, 6, 3, 2, by decide⟩ = (.error e, w') ∧
      w' = ⟨List.replicate 8 0, 6, 3, 2, by decide⟩ :=
  ⟨_, _, rfl, (failed_leaves_window ⟨Market.Snapshot.Fields.memo, Market.Snapshot.memoData, true⟩
    ⟨List.replicate 8 0, 6, 3, 2, by decide⟩ _ (setValue [104, 105, 106]) trivial _ rfl).2.1 rfl⟩

theorem undecoded_memo_passed :
    ∃ w', valueString.run ⟨Market.Snapshot.Fields.memo, Market.Snapshot.memoData, true⟩
        ⟨[1, 255, 0], 3, 0, 2, by decide⟩ = (.error (.invalidText "memo"), w') ∧
      w'.position = 2 ∧
      (value.run ⟨Market.Snapshot.Fields.memo, Market.Snapshot.memoData, true⟩
        ⟨[1, 255, 0], 3, 0, 2, by decide⟩).1 = .ok [255] ∧
      (value.run ⟨Market.Snapshot.Fields.memo, Market.Snapshot.memoData, true⟩ w').1 = .ok [] :=
  ⟨_, rfl, rfl, rfl, rfl⟩

end DataOperation

/-! ### Messages -/

namespace GroupView

variable {g : GroupDef} {w : Window} {count : Nat}

theorem bind_of_room (hg : g.MembersInside)
    (hle : w.position + g.dimension.encodedLength ≤ w.limit) (f : Field) :
    ∃ blockLength found, bind f g true w =
      (.ok ⟨f, g, w.position, blockLength, found, 0, none, true⟩,
        w.moved g.dimension.encodedLength) :=
  ⟨_, _, bind_of_header hg (Window.read_of_le hle) f⟩

theorem atomic_bind (hg : g.MembersInside) (f : Field) (visible : Bool) :
    Atomic id (bind f g visible) w := by
  cases visible with
  | false => exact .of_ok (bind_invisible f g w)
  | true =>
    by_cases hle : w.position + g.dimension.encodedLength ≤ w.limit
    · obtain ⟨blockLength, found, hbind⟩ := bind_of_room hg hle f
      exact .of_ok hbind
    · intro e _
      rw [bind_of_lt (Nat.lt_of_not_le hle) f]

theorem bind_resetCount_of_over (hg : g.MembersInside)
    (hn : g.numInGroupMember.primitive.rawMax < count)
    (hle : w.position + g.dimension.encodedLength ≤ w.limit) (f : Field) :
    (bind f g true >>= fun view => Entry.resetCount count (.group view)) w =
      (.error (.countOverflow f.name count), w.moved g.dimension.encodedLength) := by
  obtain ⟨blockLength, found, hbind⟩ := bind_of_room hg hle f
  rw [Action.bind_of_ok hbind]
  simp only [Entry.resetCount, Iteration.run, Iteration.resetCount, Action.bind_apply,
    Action.get_apply, Bool.not_true, Bool.false_eq_true, if_false, Nat.lt_irrefl, if_pos hn,
    Action.throw_apply, name]

theorem atomic_bind_resetCount (hg : g.MembersInside) (f : Field)
    (h : count ≤ g.numInGroupMember.primitive.rawMax ∨
      w.limit < w.position + g.dimension.encodedLength) :
    Atomic id (bind f g true >>= fun view => Entry.resetCount count (.group view)) w := by
  by_cases hle : w.position + g.dimension.encodedLength ≤ w.limit
  · have hn := h.resolve_right (Nat.not_lt.mpr hle)
    obtain ⟨blockLength, found, hbind⟩ := bind_of_room hg hle f
    have hreset : Iteration.resetCount count
        ⟨⟨f, g, w.position, blockLength, found, 0, none, true⟩,
          w.moved g.dimension.encodedLength⟩ = _ := resetCount_of_le rfl rfl hn hg hle
    apply Atomic.of_ok
    rw [Action.bind_of_ok hbind]
    simp only [Entry.resetCount, Iteration.run, Action.bind_apply, hreset, Action.get_apply,
      Action.pure_apply]
    rfl
  · intro e _
    rw [Action.bind_of_error (bind_of_lt (Nat.lt_of_not_le hle) f)]

end GroupView

namespace Message

variable {α : Type} {m : Message} {f : Field}

theorem atomic_onWindow {action : Action Window α} (h : Atomic id action m.window) :
    Atomic id (onWindow action) m := by
  apply Atomic.onPart h
  intro w hw
  have hsame : w = m.window := hw
  rw [hsame]

theorem atomic_onField {action : Binding → Action Window α}
    (h : Atomic id (action (m.bind f)) m.window) : Atomic id (onField f action) m :=
  .get_bind (atomic_onWindow h)

theorem atomic_operation (operation : FieldOperation α) :
    Atomic id (onField f operation.run) m :=
  atomic_onField operation.atomic

theorem atomic_data {action : DataView → Action Window α} (h : ∀ d w, Atomic id (action d) w) :
    Atomic id (onField f fun b => do action (← DataView.ofBinding b)) m :=
  atomic_onField (.lift_bind fun d _ => h d m.window)

end Message

namespace Market.Snapshot

inductive Call : Type → Type
  | securityId : Call UInt64
  | lastRptSeq : Call (Option UInt32)
  | symbol : Call String
  | priceBand : Call (Int32 × Int32)
  | securityExchange : Call String
  | noMdEntries : Call GroupView
  | memo : Call Bytes
  | setSecurityId (value : UInt64) : Call Unit
  | setLastRptSeq (value : Option UInt32) : Call Unit
  | setSymbol (value : String) : Call Unit
  | setPriceBand (low high : Int32) : Call Unit
  | noMdEntriesCount (count : Nat) : Call GroupView
  | setMemo (value : String) : Call Unit

namespace Call

def run {α : Type} : Call α → Action Message α
  | securityId => Action.query Snapshot.securityId
  | lastRptSeq => Action.query Snapshot.lastRptSeq
  | symbol => Action.query Snapshot.symbol
  | priceBand => Action.query Snapshot.priceBand
  | securityExchange => Action.query Snapshot.securityExchange
  | noMdEntries => Snapshot.noMdEntries
  | memo => Snapshot.memo
  | setSecurityId value => Snapshot.setSecurityId value
  | setLastRptSeq value => Snapshot.setLastRptSeq value
  | setSymbol value => Snapshot.setSymbol value
  | setPriceBand low high => Snapshot.setPriceBand low high
  | noMdEntriesCount count => Snapshot.noMdEntriesCount count
  | setMemo value => Snapshot.setMemo value

def TooMany {α : Type} (m : Message) : Call α → Prop
  | noMdEntriesCount count => 255 < count ∧ m.window.position + 3 ≤ m.window.limit
  | _ => False

variable {α : Type} {m : Message}

theorem noMdEntriesCount_window (count : Nat) (m : Message) :
    Snapshot.noMdEntriesCount count m = Message.onWindow
      (GroupView.bind Fields.noMdEntries Entries.group true >>= fun view =>
        Entry.resetCount count (.group view)) m := by
  have hversion : Fields.noMdEntries.inVersion m.version = true := decide_eq_true UInt16.zero_le
  have hvisible : (m.bind Fields.noMdEntries).visible = true := hversion
  rw [noMdEntriesCount_eq]
  change Message.onWindow (GroupView.bind Fields.noMdEntries Entries.group
    (m.bind Fields.noMdEntries).visible >>= _) m = _
  rw [hvisible]
  rfl

theorem noMdEntriesCount_of_tooMany {count : Nat} (h : (noMdEntriesCount count).TooMany m) :
    Snapshot.noMdEntriesCount count m =
      (.error (.countOverflow "noMDEntries" count), { m with window := m.window.moved 3 }) := by
  have hinside : Entries.group.MembersInside := by decide
  have hover := GroupView.bind_resetCount_of_over hinside h.1 h.2 Fields.noMdEntries
  rw [noMdEntriesCount_window, Message.onWindow, Action.onPart_apply, hover]
  rfl

theorem atomic_run (call : Call α) (h : ¬ call.TooMany m) : Atomic id call.run m := by
  cases call with
  | noMdEntries =>
    exact Message.atomic_onField (GroupView.atomic_bind (by decide) Fields.noMdEntries _)
  | memo => exact Message.atomic_data fun _ _ => DataView.atomic_value
  | setSecurityId value => exact Message.atomic_operation (.setScalar value)
  | setLastRptSeq value => exact Message.atomic_operation (.setScalar? value)
  | setSymbol value => exact Message.atomic_operation (.setText (utf8 value))
  | setPriceBand low high => exact Message.atomic_operation (.setArray [low, high])
  | noMdEntriesCount count =>
    have hfits : count ≤ 255 ∨ m.window.limit < m.window.position + 3 := by
      unfold TooMany at h
      omega
    have hinside : Entries.group.MembersInside := by decide
    have hwindow := GroupView.atomic_bind_resetCount hinside Fields.noMdEntries hfits
    intro e he
    rw [run, noMdEntriesCount_window] at he ⊢
    exact Message.atomic_onWindow hwindow e he
  | setMemo value => exact Message.atomic_data fun _ _ => DataView.atomic_setValue (utf8 value)
  | securityId | lastRptSeq | symbol | priceBand | securityExchange => exact .of_keeps (.query _)

/-- A call that fails leaves the message as it was, unless it is to announce too many entries: that
leaves the position behind the header, so that the message has to be rewound. -/
theorem failed_leaves_message (m m' : Message) (call : Call α) (e : Error)
    (h : call.run m = (.error e, m')) :
    (¬ call.TooMany m → m' = m) ∧
      (call.TooMany m → m' = { m with window := m.window.moved 3 } ∧
        ∃ count, e = .countOverflow "noMDEntries" count) ∧
      m'.window.bytes = m.window.bytes ∧
      (m.offset + m.blockLength ≤ m.window.limit → m'.rewind = m.rewind) := by
  have hkept : ¬ call.TooMany m → m' = m := fun hfew => (atomic_run call hfew).after h
  have hpassed : call.TooMany m → m' = { m with window := m.window.moved 3 } ∧
      ∃ count, e = .countOverflow "noMDEntries" count := by
    intro hmany
    cases call with
    | noMdEntriesCount count =>
      have hsame := h.symm.trans (noMdEntriesCount_of_tooMany hmany)
      cases hsame
      exact ⟨rfl, count, rfl⟩
    | _ => exact absurd hmany id
  have hframe : m'.frame = m.frame := by
    by_cases hmany : call.TooMany m
    · rw [(hpassed hmany).1]
      rfl
    · rw [hkept hmany]
  have hbytes : m'.frame.window.bytes = m.frame.window.bytes := by rw [hframe]
  exact ⟨hkept, hpassed, hbytes, Message.rewind_of_frame hframe⟩

theorem failed_leaves_message_memo :
    ∃ m m', Message.wrapForEncode (List.replicate 40 0) 0 30 Snapshot.definition = .ok m ∧
      (setMemo "hi").run m = (.error (.bufferTooShort 31 30), m') ∧ m' = m :=
  ⟨_, _, rfl, rfl, (failed_leaves_message _ _ (setMemo "hi") _ rfl).1 id⟩

theorem corrected_count_misplaced :
    ∃ m m', Message.wrapForEncode (List.replicate 40 0) 0 40 Snapshot.definition = .ok m ∧
      (noMdEntriesCount 300).run m = (.error (.countOverflow "noMDEntries" 300), m') ∧
      m.window.position = 28 ∧ m'.window.position = 31 ∧
      (((noMdEntriesCount 1).run m).2.window.bytes).slice 28 6 = [33, 0, 1, 0, 0, 0] ∧
      (((noMdEntriesCount 1).run m').2.window.bytes).slice 28 6 = [0, 0, 0, 33, 0, 1] :=
  ⟨_, _, rfl, rfl, rfl, rfl, rfl, rfl⟩

def runAll : List ((α : Type) × Call α) → Message → Message
  | [], m => m
  | ⟨_, call⟩ :: rest, m => runAll rest (call.run m).2

def succeeding : List ((α : Type) × Call α) → Message → List ((α : Type) × Call α)
  | [], _ => []
  | ⟨α, call⟩ :: rest, m =>
    if (call.run m).1.isOk then ⟨α, call⟩ :: succeeding rest (call.run m).2
    else succeeding rest (call.run m).2

theorem runAll_succeeding (calls : List ((α : Type) × Call α))
    (h : ∀ count, ⟨GroupView, noMdEntriesCount count⟩ ∈ calls → count ≤ 255) (m : Message) :
    runAll (succeeding calls m) m = runAll calls m := by
  induction calls generalizing m with
  | nil => rfl
  | cons first rest ih =>
    obtain ⟨α, call⟩ := first
    have hrest := ih (fun count hcount => h count (List.mem_cons_of_mem _ hcount))
    rw [runAll, succeeding]
    cases hrun : (call.run m).1 with
    | ok a => exact hrest _
    | error e =>
      have hfew : ¬ call.TooMany m := by
        cases call with
        | noMdEntriesCount count =>
          have hle := h count List.mem_cons_self
          rintro ⟨hmany, -⟩
          omega
        | _ => exact id
      have hsame : (call.run m).2 = m := atomic_run call hfew e hrun
      rw [hsame]
      exact hrest m

end Call

end Market.Snapshot

end SimpleBinary
