import SimpleBinary.Proofs.Course
import SimpleBinary.Proofs.Views

namespace SimpleBinary

theorem Bytes.overwrite_middle (front back : Bytes) {old new : Bytes}
    (h : new.length = old.length) :
    (front ++ old ++ back).overwrite front.length new = front ++ new ++ back := by
  have hback : (front ++ old ++ back).drop (front.length + new.length) = back := by
    rw [h, ← List.length_append, List.drop_left]
  rw [overwrite, hback, List.append_assoc front, List.take_left, List.append_assoc]

namespace MessageHeader

inductive Slot where
  | blockLength
  | templateId
  | schemaId
  | version
  deriving DecidableEq

namespace Slot

def name : Slot → String
  | blockLength => "blockLength"
  | templateId => "templateId"
  | schemaId => "schemaId"
  | version => "version"

def offset : Slot → Nat
  | blockLength => 0
  | templateId => 2
  | schemaId => 4
  | version => 6

def binding (slot : Slot) (start : Nat) : Binding :=
  ⟨.required slot.name 0 slot.offset (.type (.plain "uint16" .uint16 1)), start + slot.offset, true⟩

def spot (slot : Slot) : Spot :=
  .field (.members .header) (.name slot.name)

end Slot

def get (h : MessageHeader) : Slot → UInt16
  | .blockLength => h.blockLength
  | .templateId => h.templateId
  | .schemaId => h.schemaId
  | .version => h.version

def set (h : MessageHeader) (slot : Slot) (n : UInt16) : MessageHeader :=
  match slot with
  | .blockLength => { h with blockLength := n }
  | .templateId => { h with templateId := n }
  | .schemaId => { h with schemaId := n }
  | .version => { h with version := n }

variable {h header : MessageHeader} {slot : Slot} {n : UInt16}

theorem ext_get {h' : MessageHeader} (hget : ∀ slot, h.get slot = h'.get slot) : h = h' := by
  obtain ⟨blockLength, templateId, schemaId, version⟩ := h
  obtain ⟨blockLength', templateId', schemaId', version'⟩ := h'
  obtain rfl : blockLength = blockLength' := hget .blockLength
  obtain rfl : templateId = templateId' := hget .templateId
  obtain rfl : schemaId = schemaId' := hget .schemaId
  obtain rfl : version = version' := hget .version
  rfl

theorem get_set_self (h : MessageHeader) (slot : Slot) (n : UInt16) :
    (h.set slot n).get slot = n := by
  cases slot <;> rfl

theorem get_set_of_ne (h : MessageHeader) {slot' : Slot} (hne : slot' ≠ slot) (n : UInt16) :
    (h.set slot n).get slot' = h.get slot' := by
  cases slot <;> cases slot' <;> first | rfl | exact absurd rfl hne

theorem toBytes_set (h : MessageHeader) (slot : Slot) (n : UInt16) :
    (h.set slot n).toBytes = h.toBytes.overwrite slot.offset (LittleEndian.encode 2 n.toNat) := by
  have hlength (m : UInt16) : (LittleEndian.encode 2 m.toNat).length = 2 :=
    LittleEndian.length_encode 2 _
  have hslot (m : UInt16) : (LittleEndian.encode 2 n.toNat).length =
      (LittleEndian.encode 2 m.toNat).length := (hlength n).trans (hlength m).symm
  cases slot with
  | blockLength =>
    have hwritten := Bytes.overwrite_middle []
      (LittleEndian.encode 2 h.templateId.toNat ++ LittleEndian.encode 2 h.schemaId.toNat ++
        LittleEndian.encode 2 h.version.toNat) (hslot h.blockLength)
    rw [List.length_nil] at hwritten
    simpa only [toBytes, set, Slot.offset, List.append_assoc, List.nil_append] using hwritten.symm
  | templateId =>
    have hwritten := Bytes.overwrite_middle (LittleEndian.encode 2 h.blockLength.toNat)
      (LittleEndian.encode 2 h.schemaId.toNat ++ LittleEndian.encode 2 h.version.toNat)
      (hslot h.templateId)
    rw [hlength] at hwritten
    simpa only [toBytes, set, Slot.offset, List.append_assoc] using hwritten.symm
  | schemaId =>
    have hwritten := Bytes.overwrite_middle
      (LittleEndian.encode 2 h.blockLength.toNat ++ LittleEndian.encode 2 h.templateId.toNat)
      (LittleEndian.encode 2 h.version.toNat) (hslot h.schemaId)
    rw [List.length_append, hlength, hlength] at hwritten
    simpa only [toBytes, set, Slot.offset, List.append_assoc] using hwritten.symm
  | version =>
    have hwritten := Bytes.overwrite_middle
      (LittleEndian.encode 2 h.blockLength.toNat ++ LittleEndian.encode 2 h.templateId.toNat ++
        LittleEndian.encode 2 h.schemaId.toNat) [] (hslot h.version)
    rw [List.length_append, List.length_append, hlength, hlength, hlength] at hwritten
    simpa only [toBytes, set, Slot.offset, List.append_assoc, List.append_nil] using hwritten.symm

theorem set_get (h : MessageHeader) (slot : Slot) : h.set slot (h.get slot) = h := by
  cases slot <;> rfl

theorem slice_toBytes (h : MessageHeader) (slot : Slot) :
    h.toBytes.slice slot.offset 2 = LittleEndian.encode 2 (h.get slot).toNat := by
  have hlength : (LittleEndian.encode 2 (h.get slot).toNat).length = 2 :=
    LittleEndian.length_encode 2 _
  have hoffset : slot.offset ≤ h.toBytes.length := by
    rw [length_toBytes]
    cases slot <;> decide
  have hslice : _ = LittleEndian.encode 2 (h.get slot).toNat := Bytes.slice_overwrite hoffset
  rwa [← toBytes_set, set_get, hlength] at hslice

def setAll (h : MessageHeader) (numbers : List (Slot × UInt16)) : MessageHeader :=
  numbers.foldl (fun h number => h.set number.1 number.2) h

theorem get_setAll_of_not_mem {numbers : List (Slot × UInt16)} (h : MessageHeader)
    (hslot : slot ∉ numbers.map Prod.fst) : (h.setAll numbers).get slot = h.get slot := by
  induction numbers generalizing h with
  | nil => rfl
  | cons number rest ih =>
    rw [List.map_cons, List.mem_cons, not_or] at hslot
    exact (ih _ hslot.2).trans (get_set_of_ne h hslot.1 number.2)

theorem get_setAll_of_mem {numbers : List (Slot × UInt16)} {values : MessageHeader}
    (hvalues : ∀ number ∈ numbers, number.2 = values.get number.1) (h : MessageHeader)
    (hslot : slot ∈ numbers.map Prod.fst) : (h.setAll numbers).get slot = values.get slot := by
  induction numbers generalizing h with
  | nil => cases hslot
  | cons number rest ih =>
    obtain ⟨hfirst, hrest⟩ := List.forall_mem_cons.mp hvalues
    by_cases hlater : slot ∈ rest.map Prod.fst
    · exact ih hrest _ hlater
    · rw [List.map_cons, List.mem_cons] at hslot
      obtain rfl := hslot.resolve_right hlater
      calc (h.setAll (number :: rest)).get number.1
          = ((h.set number.1 number.2).setAll rest).get number.1 := rfl
        _ = number.2 := by rw [get_setAll_of_not_mem _ hlater, get_set_self]
        _ = values.get number.1 := hfirst

theorem setAll_of_covers {numbers : List (Slot × UInt16)} {values : MessageHeader}
    (hvalues : ∀ number ∈ numbers, number.2 = values.get number.1)
    (hcovers : ∀ slot, slot ∈ numbers.map Prod.fst) (h : MessageHeader) :
    h.setAll numbers = values :=
  ext_get fun slot => get_setAll_of_mem hvalues h (hcovers slot)

theorem write_of_le (h : MessageHeader) {bytes : Bytes} (hb : size ≤ bytes.length) :
    h.write bytes = (.ok ⟨⟩, bytes.overwrite 0 h.toBytes) := by
  simp only [write, Action.bind_apply, Action.get_apply, if_neg (Nat.not_lt.mpr hb),
    Action.set_apply]

theorem read_eq_read_slice {bytes : Bytes} (hb : size ≤ bytes.length) :
    read bytes = read (bytes.slice 0 size) := by
  have hslice : (bytes.slice 0 size).length = size := Bytes.length_slice (by omega)
  have hword {start : Nat} (hs : start + 2 ≤ size) :
      (bytes.slice 0 size).slice start 2 = bytes.slice start 2 := by
    rw [Bytes.slice_slice bytes hs, Nat.zero_add]
  rw [read, read, if_neg (by omega), if_neg (by omega)]
  change Except.ok (MessageHeader.mk (UInt16.ofNat (LittleEndian.decode (bytes.slice 0 2)))
    (UInt16.ofNat (LittleEndian.decode (bytes.slice 2 2)))
    (UInt16.ofNat (LittleEndian.decode (bytes.slice 4 2)))
    (UInt16.ofNat (LittleEndian.decode (bytes.slice 6 2)))) =
    Except.ok (MessageHeader.mk
      (UInt16.ofNat (LittleEndian.decode ((bytes.slice 0 size).slice 0 2)))
      (UInt16.ofNat (LittleEndian.decode ((bytes.slice 0 size).slice 2 2)))
      (UInt16.ofNat (LittleEndian.decode ((bytes.slice 0 size).slice 4 2)))
      (UInt16.ofNat (LittleEndian.decode ((bytes.slice 0 size).slice 6 2))))
  rw [hword (by decide), hword (by decide), hword (by decide), hword (by decide)]

theorem slice_of_read {bytes : Bytes} (h : read bytes = .ok header) :
    size ≤ bytes.length ∧ bytes.slice 0 size = header.toBytes := by
  have hb : size ≤ bytes.length := by
    by_contra hshort
    rw [read, if_pos (Nat.lt_of_not_le hshort)] at h
    cases h
  rw [read_eq_read_slice hb] at h
  exact ⟨hb, (toBytes_of_read (Bytes.length_slice (by omega)) h).symm⟩

theorem read_of_write (h : MessageHeader) {bytes : Bytes} (hb : size ≤ bytes.length) :
    ∃ bytes', h.write bytes = (.ok ⟨⟩, bytes') ∧ read bytes' = .ok h := by
  refine ⟨_, write_of_le h hb, ?_⟩
  have hlength : (bytes.overwrite 0 h.toBytes).length = bytes.length :=
    Bytes.length_overwrite (by rw [length_toBytes]; omega)
  have hslice : (bytes.overwrite 0 h.toBytes).slice 0 size = h.toBytes := by
    rw [← length_toBytes h]
    exact Bytes.slice_overwrite (Nat.zero_le _)
  rw [read_eq_read_slice (by omega), hslice, read_toBytes]

theorem write_of_read {bytes : Bytes} (hb : size ≤ bytes.length) :
    ∃ header, read bytes = .ok header ∧ header.write bytes = (.ok ⟨⟩, bytes) := by
  have hread : ∃ header, read bytes = .ok header := ⟨_, if_neg (Nat.not_lt.mpr hb)⟩
  obtain ⟨header, hread⟩ := hread
  refine ⟨header, hread, ?_⟩
  rw [write_of_le header hb, ← (slice_of_read hread).2, Bytes.overwrite_slice (by omega)]

inductive Put where
  | value (scalar : Scalar)
  | number (n : UInt16)

namespace Put

def word : Put → UInt16
  | value scalar => scalar.toUInt64.toUInt16
  | number n => n

def operation : Put → FieldOperation Unit
  | value scalar => .setValue (.scalar scalar)
  | number n => .setScalar n

end Put

section

variable {start : Nat} {w : Window}

instance : ExactElementOf UInt16 (TypeDef.plain "uint16" .uint16 1).primitive :=
  inferInstanceAs (ExactElementOf UInt16 .uint16)

theorem stored_binding (slot : Slot) (start : Nat) :
    (slot.binding start).field.presence ≠ .constant := nofun

theorem put_eq_write (put : Put) (slot : Slot) (start : Nat) (w : Window) :
    put.operation.run (slot.binding start) w =
      Window.write (start + slot.offset) (LittleEndian.encode 2 put.word.toNat) w := by
  cases put with
  | value scalar =>
    have hcut : (Element.encode (Element.ofScalar scalar : UInt16)) =
        (TypeDef.plain "uint16" .uint16 1).primitive.encode scalar :=
      ExactElementOf.encode_ofScalar scalar
    have hwrite : (slot.binding start).setValue (.scalar scalar) w = _ :=
      Binding.setValue_eq_write rfl (stored_binding slot start) rfl scalar
    rw [← hcut] at hwrite
    exact hwrite
  | number n =>
    exact Binding.setScalar_eq_write (t := .plain "uint16" .uint16 1) rfl
      (stored_binding slot start) rfl n

theorem scalar_of_slice (hl : start + size ≤ w.limit)
    (hs : w.bytes.slice start size = h.toBytes) (slot : Slot) :
    (slot.binding start).scalar UInt16 w = .ok (h.get slot) := by
  have hinside : slot.offset + 2 ≤ size := by cases slot <;> decide
  have hread : w.read start size = .ok h.toBytes := by rw [Window.read_of_le hl, hs]
  have hscalar : (slot.binding start).scalar UInt16 w =
      (w.read (start + slot.offset) 2).map Element.decode := rfl
  rw [hscalar, Window.read_part hread hinside, slice_toBytes]
  exact congrArg Except.ok (FaithfulElement.decode_encode (h.get slot))

theorem value_of_slice (hl : start + size ≤ w.limit)
    (hs : w.bytes.slice start size = h.toBytes) (slot : Slot) :
    (slot.binding start).value w = .ok (.scalar (.uint (h.get slot).toUInt64)) := by
  rw [Binding.value_eq_scalar_of_visible (α := UInt16) (t := .plain "uint16" .uint16 1) rfl
    (stored_binding slot start) rfl rfl, scalar_of_slice hl hs]
  rfl

end

end MessageHeader

theorem Bytes.overwrite_slice_part {bytes part piece : Bytes} {start start' size : Nat}
    (hs : bytes.slice start size = part) (h : start + size ≤ bytes.length)
    (h' : start' + piece.length ≤ size) :
    bytes.overwrite (start + start') piece =
      bytes.overwrite start (part.overwrite start' piece) := by
  have hlength : part.length = size := by rw [← hs, length_slice h]
  have hself : bytes.overwrite start part = bytes := by rw [← hs, overwrite_slice h]
  rw [← overwrite_overwrite_within (by rwa [hlength]) (by rwa [hlength]), hself]

namespace Session

open MessageHeader

structure Headed (s : Session) (offset : Nat) (header : MessageHeader) : Prop where
  offset_eq : s.message.headerOffset = some offset
  stop_le : offset + MessageHeader.size ≤ s.window.limit
  limit_le : s.window.limit ≤ s.window.bytes.length
  slice_eq : s.window.bytes.slice offset MessageHeader.size = header.toBytes

def withHeader (s : Session) (offset : Nat) (header : MessageHeader) : Session :=
  s.withWindow (s.window.written offset header.toBytes)

def putAll (puts : List (Slot × Put)) : List Step :=
  puts.map fun put => ⟨Unit, .field put.1.spot put.2.operation⟩

variable {s : Session} {offset : Nat} {header : MessageHeader}

namespace Headed

theorem bind_spot (h : s.Headed offset header) (slot : Slot) :
    s.bind slot.spot = .ok (slot.binding offset) := by
  have hv : (decide ((0 : UInt16) ≤ s.message.version)) = true :=
    decide_eq_true (UInt16.zero_le)
  have hword : wordOf (offset + slot.offset) = offset + slot.offset := by
    have hstop := h.stop_le
    have hslot : slot.offset ≤ MessageHeader.size := by cases slot <;> decide
    exact Window.wordOf_of_le (w := s.window) (by omega)
  have hbind : s.bind slot.spot = .ok ⟨.required slot.name 0 slot.offset
      (.type (.plain "uint16" .uint16 1)), wordOf (offset + slot.offset),
        true && decide ((0 : UInt16) ≤ s.message.version)⟩ := by
    cases slot <;>
      simp only [Slot.spot, Session.bind, block, Message.header, h.offset_eq, Action.ok_bind] <;>
      rfl
  rw [hbind, hv, hword]
  rfl

theorem run_field (h : s.Headed offset header) (slot : Slot) {α : Type}
    (operation : FieldOperation α) :
    (Operation.field slot.spot operation).run s =
      Session.onWindow (operation.run (slot.binding offset)) s := by
  simp only [Operation.run, Action.bind_apply, Action.get_apply, Action.lift_apply, h.bind_spot]

theorem length_le (h : s.Headed offset header) :
    offset + MessageHeader.size ≤ s.window.bytes.length :=
  Nat.le_trans h.stop_le h.limit_le

theorem withHeader (h : s.Headed offset header) (header' : MessageHeader) :
    (s.withHeader offset header').Headed offset header' where
  offset_eq := h.offset_eq
  stop_le := h.stop_le
  limit_le := by
    have hlength : (s.window.bytes.overwrite offset header'.toBytes).length =
        s.window.bytes.length :=
      Bytes.length_overwrite (by rw [length_toBytes]; exact h.length_le)
    exact Nat.le_trans h.limit_le (Nat.le_of_eq hlength.symm)
  slice_eq := by
    have hstart := Nat.le_trans (Nat.le_add_right _ _) h.length_le
    have hslice : _ = header'.toBytes := Bytes.slice_overwrite hstart
    rwa [length_toBytes] at hslice

theorem withHeader_self (h : s.Headed offset header) : s.withHeader offset header = s := by
  rw [Session.withHeader, Window.written, ← h.slice_eq, Bytes.overwrite_slice h.length_le]
  rfl

theorem withHeader_withHeader (h : s.Headed offset header) (header' header'' : MessageHeader) :
    (s.withHeader offset header').withHeader offset header'' = s.withHeader offset header'' := by
  have hfits : offset + header'.toBytes.length ≤ s.window.bytes.length := by
    rw [length_toBytes]
    exact h.length_le
  have hwithin : 0 + header''.toBytes.length ≤ header'.toBytes.length := by
    rw [length_toBytes, length_toBytes, Nat.zero_add]
  have htwice := Bytes.overwrite_overwrite_within hfits hwithin
  rw [Nat.add_zero, Bytes.overwrite_whole (by rw [length_toBytes, length_toBytes])] at htwice
  exact congrArg (fun bytes => s.withWindow { s.window with bytes }) htwice

theorem run_put (h : s.Headed offset header) (slot : Slot) (put : Put) :
    (Operation.field slot.spot put.operation).run s =
      (.ok ⟨⟩, s.withHeader offset (header.set slot put.word)) := by
  have hlength : (LittleEndian.encode 2 put.word.toNat).length = 2 := LittleEndian.length_encode 2 _
  have hinside : slot.offset + 2 ≤ MessageHeader.size := by cases slot <;> decide
  have hle : offset + slot.offset + (LittleEndian.encode 2 put.word.toNat).length ≤
      s.window.limit := by
    have := h.stop_le
    omega
  have hslot := Bytes.overwrite_slice_part h.slice_eq h.length_le
    (show slot.offset + (LittleEndian.encode 2 put.word.toNat).length ≤ _ by rwa [hlength])
  rw [h.run_field, onWindow, Action.onPart_apply, put_eq_write, Window.write_of_le hle,
    Session.withHeader, toBytes_set, Window.written, Window.written, hslot]

theorem run_putAll (puts : List (Slot × Put)) : ∀ {s : Session} {header : MessageHeader},
    s.Headed offset header →
      runSteps (putAll puts) s =
        (puts.map fun _ => ⟨Unit, .ok ⟨⟩, s.message.position⟩,
          s.withHeader offset (header.setAll (puts.map fun put => (put.1, put.2.word)))) := by
  induction puts with
  | nil =>
    intro s header h
    exact congrArg (Prod.mk []) h.withHeader_self.symm
  | cons put rest ih =>
    obtain ⟨slot, put⟩ := put
    intro s header h
    have hrest := ih (h.withHeader (header.set slot put.word))
    have hstep : runSteps (putAll ((slot, put) :: rest)) s = _ :=
      runSteps_cons (.field slot.spot put.operation) (putAll rest) s
    rw [hstep, h.run_put, hrest, h.withHeader_withHeader]
    rfl

end Headed

theorem headed_of_limit (hoffset : s.message.headerOffset = some offset)
    (hstop : offset + MessageHeader.size ≤ s.window.limit)
    (hlimit : s.window.limit ≤ s.window.bytes.length) :
    ∃ header, MessageHeader.read (s.window.bytes.slice offset MessageHeader.size) = .ok header ∧
      s.Headed offset header := by
  have hlength : (s.window.bytes.slice offset MessageHeader.size).length = MessageHeader.size :=
    Bytes.length_slice (Nat.le_trans hstop hlimit)
  obtain ⟨header, hread, -⟩ := write_of_read (Nat.le_of_eq hlength.symm)
  exact ⟨header, hread, hoffset, hstop, hlimit, (toBytes_of_read hlength hread).symm⟩

end Session

namespace Wrapping

variable {wrapping : Wrapping} {definition : MessageDef} {offset limit : Nat} {bytes bytes' : Bytes}
  {m : Message}

theorem headerOffset_of_frame
    (hframe : wrapping = .readFrame offset limit ∨ wrapping = .writeFrame offset limit)
    (h : wrapping.wrap definition bytes = (.ok m, bytes')) :
    m.headerOffset = some offset ∧ offset + MessageHeader.size ≤ m.window.limit := by
  rcases hframe with rfl | rfl
  · obtain ⟨blockLength, version, inner, hinner, rfl⟩ :=
      Message.readFrame_eq_ok (Prod.mk.inj h).1
    obtain ⟨hle, -, _, rfl⟩ := Message.wrapForDecode_eq_ok hinner
    exact ⟨rfl, Nat.le_trans (Nat.le_add_right _ _) hle⟩
  · obtain ⟨inner, hinner, rfl⟩ := Message.writeFrame_eq_ok h
    obtain ⟨hle, -, _, rfl⟩ := Message.wrapForDecode_eq_ok hinner
    exact ⟨rfl, Nat.le_trans (Nat.le_add_right _ _) hle⟩

theorem headed_of_runSteps
    (hframe : wrapping = .readFrame offset limit ∨ wrapping = .writeFrame offset limit)
    (h : wrapping.wrap definition bytes = (.ok m, bytes')) {steps : List Step} {s : Session}
    (hs : s = (Session.runSteps steps ⟨m, []⟩).2) :
    ∃ header, MessageHeader.read (s.window.bytes.slice offset MessageHeader.size) = .ok header ∧
      s.Headed offset header := by
  obtain ⟨hoffset, hstop⟩ := headerOffset_of_frame hframe h
  obtain ⟨hplaced, -, -, -⟩ := placed_of_wrap h
  obtain ⟨hcontinues, hplaced'⟩ := Session.course_of_runSteps steps (s := ⟨m, []⟩) hplaced
  rw [← hs] at hcontinues hplaced'
  refine Session.headed_of_limit ?_ ?_ hplaced'.sound.limit_le
  · rw [hcontinues.same]
    exact hoffset
  · rw [Session.window, hcontinues.limit_eq]
    exact hstop

/-- The codec of the header and its composite are about the same eight bytes, at any time in the use
of a message that has its header: the members are read as the numbers that the codec decodes, and
numbers put to all of them, in any order, leave the bytes that the codec encodes. Nothing else of
the message changes by that, and the codec goes both ways without loss. -/
theorem header_as_members
    (hframe : wrapping = .readFrame offset limit ∨ wrapping = .writeFrame offset limit)
    (h : wrapping.wrap definition bytes = (.ok m, bytes')) (steps : List Step) {s : Session}
    (hs : s = (Session.runSteps steps ⟨m, []⟩).2) :
    (∃ header,
      MessageHeader.read (s.window.bytes.slice offset MessageHeader.size) = .ok header ∧
      ∀ slot : MessageHeader.Slot,
        (Operation.field slot.spot (.scalar UInt16)).run s = (.ok (header.get slot), s) ∧
        (Operation.field slot.spot .value).run s =
          (.ok (.scalar (.uint (header.get slot).toUInt64)), s)) ∧
    (∀ (values : MessageHeader) (puts : List (MessageHeader.Slot × MessageHeader.Put)),
      (∀ put ∈ puts, put.2.word = values.get put.1) →
      (∀ slot, slot ∈ puts.map Prod.fst) →
      ∃ encoded, values.write (s.window.bytes.slice offset MessageHeader.size) =
          (.ok ⟨⟩, encoded) ∧
        Session.runSteps (Session.putAll puts) s =
          (puts.map fun _ => ⟨Unit, .ok ⟨⟩, s.message.position⟩,
            s.withWindow (s.window.written offset encoded))) ∧
    (∀ (header : MessageHeader) (part : Bytes), MessageHeader.size ≤ part.length →
      ∃ part', header.write part = (.ok ⟨⟩, part') ∧ MessageHeader.read part' = .ok header) ∧
    ∀ part : Bytes, MessageHeader.size ≤ part.length →
      ∃ header, MessageHeader.read part = .ok header ∧ header.write part = (.ok ⟨⟩, part) := by
  obtain ⟨header, hread, hheaded⟩ := headed_of_runSteps hframe h hs
  refine ⟨⟨header, hread, ?_⟩, ?_, fun header _ => header.read_of_write,
    fun _ => MessageHeader.write_of_read⟩
  · intro slot
    have hscalar := MessageHeader.scalar_of_slice hheaded.stop_le hheaded.slice_eq slot
    have hvalue := MessageHeader.value_of_slice hheaded.stop_le hheaded.slice_eq slot
    rw [hheaded.run_field, hheaded.run_field]
    exact ⟨congrArg (·, s) hscalar, congrArg (·, s) hvalue⟩
  · intro values puts hvalues hcovers
    have hlength : (s.window.bytes.slice offset MessageHeader.size).length = MessageHeader.size :=
      Bytes.length_slice hheaded.length_le
    have hcovered : ∀ slot, slot ∈ (puts.map fun put => (put.1, put.2.word)).map Prod.fst := by
      rwa [List.map_map]
    -- Each member is written at least once with its value, so nothing is left of the header before.
    have hall := MessageHeader.setAll_of_covers (List.forall_mem_map.mpr hvalues) hcovered header
    refine ⟨values.toBytes, ?_, ?_⟩
    · rw [MessageHeader.write_of_le values (Nat.le_of_eq hlength.symm),
        Bytes.overwrite_whole (by rw [MessageHeader.length_toBytes, hlength])]
    · rw [hheaded.run_putAll puts, hall]
      rfl

theorem header_as_members_emptyBook :
    ∃ m bytes', (Wrapping.writeFrame 3 30).wrap Market.EmptyBook.definition (List.replicate 30 7) =
        (.ok m, bytes') ∧
      (Operation.field (MessageHeader.Slot.spot .templateId) (.scalar UInt16)).run ⟨m, []⟩ =
        (.ok 9, ⟨m, []⟩) ∧
      -- A scalar is cut to two bytes, and a member may be written twice.
      (Session.runSteps (Session.putAll [(.version, .value (.int (-1))), (.schemaId, .number 4),
          (.templateId, .value (.uint 65538)), (.blockLength, .number 5),
          (.version, .number 65535)]) ⟨m, []⟩).2.window.bytes.slice 2 10 =
        [7, 5, 0, 2, 0, 4, 0, 255, 255, 7] := by
  have hwrap : (Wrapping.writeFrame 3 30).wrap Market.EmptyBook.definition (List.replicate 30 7) =
      (.ok _, _) := rfl
  obtain ⟨⟨header, hread, hmembers⟩, hputs, -⟩ :=
    header_as_members (.inr rfl) hwrap [] (s := ⟨_, []⟩) rfl
  obtain ⟨encoded, hencoded, hrun⟩ := hputs ⟨5, 2, 4, 65535⟩
    [(.version, .value (.int (-1))), (.schemaId, .number 4), (.templateId, .value (.uint 65538)),
      (.blockLength, .number 5), (.version, .number 65535)] (by decide) (by rintro ⟨⟩ <;> decide)
  cases hread
  cases hencoded
  refine ⟨_, _, hwrap, (hmembers .templateId).1, ?_⟩
  rw [hrun]
  rfl

end Wrapping

end SimpleBinary
