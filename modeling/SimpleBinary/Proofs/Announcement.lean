import SimpleBinary.Market.Schema
import SimpleBinary.Proofs.Frame

namespace SimpleBinary

namespace Message

/-- The two have their fields, their groups and their data at the same places. -/
structure SameLayout (a b : Message) : Prop where
  offset : a.offset = b.offset
  blockLength : a.blockLength = b.blockLength
  version : a.version = b.version
  position : a.position = b.position

def framed (bytes : Bytes) (offset limit : Nat) (hmax : limit ≤ Window.maxPosition)
    (m : MessageDef) (blockLength : Nat) : Message :=
  ⟨⟨bytes, limit, offset + MessageHeader.size + blockLength, m.schema.version, hmax⟩, m,
    offset + MessageHeader.size, some offset, blockLength⟩

theorem sameLayout_framed {bytes : Bytes} {offset limit : Nat} {hmax : limit ≤ Window.maxPosition}
    {m : MessageDef} {blockLength blockLength' : Nat} :
    (framed bytes offset limit hmax m blockLength).SameLayout
        (framed bytes offset limit hmax m blockLength') ↔ blockLength = blockLength' := by
  constructor
  · intro h
    exact h.blockLength
  · rintro rfl
    exact ⟨rfl, rfl, rfl, rfl⟩

variable {bytes bytes' : Bytes} {offset limit : Nat} {m : MessageDef} {message : Message}

theorem writeFrame_placed (h : writeFrame offset limit m bytes = (.ok message, bytes')) :
    offset + (MessageHeader.size + m.blockLength) ≤ Window.maxPosition ∧
      offset + (MessageHeader.size + m.blockLength) ≤ limit ∧ limit ≤ bytes.length ∧
      bytes' = bytes.overwrite offset (MessageHeader.ofMessage m).toBytes ∧
      ∃ hmax, message = framed bytes' offset limit hmax m m.blockLength := by
  obtain ⟨before, bytes₁, hbefore, h⟩ := Action.bind_eq_ok h
  cases hbefore
  obtain ⟨window, bytes₂, hwindow, h⟩ := Action.bind_eq_ok h
  obtain ⟨hopen, rfl⟩ := Prod.mk.inj hwindow
  obtain ⟨hlimit, -, _, rfl⟩ := Window.open?_eq_ok.mp hopen
  obtain ⟨_, bytes₃, hcheck, h⟩ := Action.bind_eq_ok h
  rw [Action.discard_apply, Action.lift_apply] at hcheck
  obtain ⟨-, rfl⟩ := Prod.mk.inj hcheck
  obtain ⟨_, bytes₄, hmodify, h⟩ := Action.bind_eq_ok h
  cases hmodify
  obtain ⟨after, bytes₅, hafter, h⟩ := Action.bind_eq_ok h
  cases hafter
  obtain ⟨inner, bytes₆, hinner, h⟩ := Action.bind_eq_ok h
  obtain ⟨hwrap, rfl⟩ := Prod.mk.inj hinner
  obtain ⟨hmax, hstop, -, hle, rfl⟩ := wrapForDecode_eq_ok_iff.mp hwrap
  cases h
  exact ⟨by omega, by omega, hlimit, rfl, hle, rfl⟩

theorem readFrame_written (h : writeFrame offset limit m bytes = (.ok message, bytes')) :
    ∃ hmax, readFrame bytes' offset limit m =
      .ok (framed bytes' offset limit hmax m (m.blockLength % UInt16.size)) := by
  obtain ⟨-, hl, hbytes, rfl, hmax, -⟩ := writeFrame_placed h
  have hlength : (MessageHeader.ofMessage m).blockLength.toNat = m.blockLength % UInt16.size :=
    UInt16.toNat_ofNat'
  have hle : m.blockLength % UInt16.size ≤ m.blockLength := Nat.mod_le _ _
  have hheader : (MessageHeader.ofMessage m).toBytes.length = MessageHeader.size :=
    MessageHeader.length_toBytes _
  have hslice : (bytes.overwrite offset (MessageHeader.ofMessage m).toBytes).slice offset
      MessageHeader.size = (MessageHeader.ofMessage m).toBytes := by
    rw [← hheader]
    exact Bytes.slice_overwrite (by omega)
  refine ⟨hmax, ?_⟩
  rw [readFrame_of_slice (by rw [Bytes.length_overwrite (by omega)]; exact hbytes) (by omega)
    hmax hslice (MessageHeader.validate_ofMessage m), hlength]
  rfl

/-- A frame just written is read with the layout of its writer just when the length of the fixed
part is one of 16 bits. A longer one is announced as what is left of it modulo 2 ^ 16. -/
theorem readFrame_sameLayout (h : writeFrame offset limit m bytes = (.ok message, bytes')) :
    ∃ decoded, readFrame bytes' offset limit m = .ok decoded ∧
      decoded.offset = message.offset ∧ decoded.version = message.version ∧
      decoded.blockLength = message.blockLength % UInt16.size ∧
      decoded.position = decoded.offset + decoded.blockLength ∧
      message.position = message.offset + message.blockLength ∧
      (decoded.SameLayout message ↔ m.blockLength < UInt16.size) := by
  obtain ⟨_, hread⟩ := readFrame_written h
  obtain ⟨-, -, -, -, _, rfl⟩ := writeFrame_placed h
  refine ⟨_, hread, rfl, rfl, rfl, rfl, rfl, ?_⟩
  rw [sameLayout_framed]
  constructor
  · intro hmod
    rw [← hmod]
    exact Nat.mod_lt _ (by decide)
  · intro hlt
    exact Nat.mod_eq_of_lt hlt

theorem readFrame_sameLayout_snapshot :
    ∃ message bytes', writeFrame 2 60 Market.Snapshot.definition (List.replicate 60 0) =
        (.ok message, bytes') ∧
      ∃ decoded, readFrame bytes' 2 60 Market.Snapshot.definition = .ok decoded ∧
        decoded.offset = message.offset ∧ decoded.version = message.version ∧
        decoded.blockLength = message.blockLength % UInt16.size ∧
        decoded.position = decoded.offset + decoded.blockLength ∧
        message.position = message.offset + message.blockLength ∧
        (decoded.SameLayout message ↔ Market.Snapshot.definition.blockLength < UInt16.size) := by
  have hwrite : writeFrame 2 60 Market.Snapshot.definition (List.replicate 60 0) = _ :=
    writeFrame_of_le (by decide) (by decide) (by decide)
  exact ⟨_, _, hwrite, readFrame_sameLayout hwrite⟩

end Message

namespace Market

def wide : MessageDef :=
  ⟨"Wide", 1, 65536, [], schema⟩

end Market

theorem Message.wide_announced_empty :
    ∃ message bytes', writeFrame 0 65544 Market.wide (List.replicate 65544 0) =
        (.ok message, bytes') ∧ message.blockLength = 65536 ∧ message.position = 65544 ∧
      ∃ decoded, readFrame bytes' 0 65544 Market.wide = .ok decoded ∧
        decoded.blockLength = 0 ∧ decoded.position = 8 ∧ ¬ decoded.SameLayout message := by
  have hlength : (List.replicate 65544 (0 : UInt8)).length = 65544 := List.length_replicate
  have hwrite : writeFrame 0 65544 Market.wide (List.replicate 65544 0) = _ :=
    writeFrame_of_le (Nat.le_of_eq hlength.symm) (by decide) (by decide)
  obtain ⟨_, hread⟩ := readFrame_written hwrite
  refine ⟨_, _, hwrite, rfl, rfl, _, hread, rfl, rfl, ?_⟩
  intro hsame
  cases hsame.blockLength

end SimpleBinary
