import SimpleBinary.Proofs.Announcement
import SimpleBinary.Proofs.Migration
import SimpleBinary.Proofs.Seen

namespace SimpleBinary

/-- The bytes of a region became others, and no other byte changed; wherever the bytes of the region
are found again in front of a limit, `shows` holds. -/
structure Filled (offset length : Nat) (shows : Bytes → Nat → Prop) (bytes bytes' : Bytes) :
    Prop where
  size_eq : bytes'.length = bytes.length
  frame : ∀ start size, Bytes.Apart start size offset length →
    bytes'.slice start size = bytes.slice start size
  shown : ∀ (found : Bytes) (limit : Nat),
    found.slice offset length = bytes'.slice offset length → offset + length ≤ limit →
    limit ≤ found.length → limit ≤ Window.maxPosition → shows found limit

namespace Filled

variable {offset length length' : Nat} {shows shows' : Bytes → Nat → Prop}
  {bytes bytes₁ bytes₂ : Bytes}

theorem nil (h : ∀ found limit, shows found limit) : Filled offset 0 shows bytes bytes :=
  ⟨rfl, fun _ _ _ => rfl, fun found limit _ _ _ _ => h found limit⟩

theorem append (h : Filled offset length shows bytes bytes₁)
    (h' : Filled (offset + length) length' shows' bytes₁ bytes₂) :
    Filled offset (length + length') (fun found limit => shows found limit ∧ shows' found limit)
      bytes bytes₂ := by
  refine ⟨h'.size_eq.trans h.size_eq, ?_, ?_⟩
  · intro start size hapart
    rw [h'.frame start size (hapart.part (by omega) (by omega)),
      h.frame start size (hapart.part (by omega) (by omega))]
  · intro found limit hsame hlimit hfound hmax
    have hfirst : found.slice offset length = bytes₂.slice offset length :=
      Bytes.slice_eq_of_slice_eq hsame (Nat.le_refl _) (by omega)
    have hsecond : found.slice (offset + length) length' = bytes₂.slice (offset + length) length' :=
      Bytes.slice_eq_of_slice_eq hsame (by omega) (by omega)
    refine ⟨h.shown found limit (hfirst.trans (h'.frame offset length ?_)) (by omega) hfound hmax,
      h'.shown found limit hsecond (by omega) hfound hmax⟩
    unfold Bytes.Apart
    omega

theorem take_eq (h : Filled offset length shows bytes bytes₁) :
    bytes₁.take offset = bytes.take offset := by
  apply h.frame 0 offset
  unfold Bytes.Apart
  omega

end Filled

structure MessageDef.ShownAt (m : MessageDef) (contents : List FieldContent) (offset stop : Nat)
    (bytes : Bytes) (limit : Nat) : Prop where
  limit_le_max : limit ≤ Window.maxPosition
  read : Message.readFrame bytes offset limit m =
    .ok (.framed bytes offset limit limit_le_max m m.blockLength)
  shows : showsFields m.schema.version m.fields contents
    ((Message.framed bytes offset limit limit_le_max m m.blockLength).body.walk
      (Message.framed bytes offset limit limit_le_max m m.blockLength).window).1
  stop_eq : ((Message.framed bytes offset limit limit_le_max m m.blockLength).body.walk
    (Message.framed bytes offset limit limit_le_max m m.blockLength).window).2.position = stop

theorem MessageDef.fill_frame {m : MessageDef} (hblock : m.blockLength < 2 ^ 16)
    (hlaid : LaidOut m.fields m.blockLength) {contents contents' : List FieldContent}
    (hseen : SeenAs m.fields m.schema.version contents contents') {bytes : Bytes}
    {offset limit : Nat} (hbytes : limit ≤ bytes.length) (hmax : limit ≤ Window.maxPosition)
    (hroom : offset + m.frameLength contents ≤ limit) :
    ∃ w, storeFields (offset + MessageHeader.size) true m.fields contents
        (Message.framed (bytes.overwrite offset (MessageHeader.ofMessage m).toBytes) offset limit
          hmax m m.blockLength).window = (.ok ⟨⟩, w) ∧
      w.position = offset + m.frameLength contents ∧
      Filled offset (m.frameLength contents)
        (m.ShownAt contents' offset (offset + m.frameLength contents)) bytes w.bytes := by
  have hheader := MessageHeader.length_toBytes (.ofMessage m)
  unfold frameLength at hroom ⊢
  have hfit : offset + (MessageHeader.ofMessage m).toBytes.length ≤ bytes.length := by omega
  set w := (Message.framed (bytes.overwrite offset (MessageHeader.ofMessage m).toBytes) offset limit
    hmax m m.blockLength).window with hw
  have hposition : w.position = offset + MessageHeader.size + m.blockLength := rfl
  have hsize : w.bytes.length = bytes.length := Bytes.length_overwrite hfit
  have hstop : w.position + wireLengthFields m.fields contents ≤ w.limit := by
    rw [hposition]
    change _ ≤ limit
    omega
  obtain ⟨w', hstore, hs, hreads⟩ := hseen (offset + MessageHeader.size) m.blockLength w rfl hlaid
    ⟨Nat.le_refl _, hstop, hsize ▸ hbytes, hmax⟩
  -- The header is in front of the fixed part, so that filling the message leaves it.
  have hheaderBytes : w'.bytes.slice offset MessageHeader.size =
      (MessageHeader.ofMessage m).toBytes := by
    have hwritten : w.bytes.slice offset MessageHeader.size = (MessageHeader.ofMessage m).toBytes :=
      hheader ▸ Bytes.slice_overwrite (by omega)
    rw [← hwritten]
    apply hs.frame
    · intro f _ _
      unfold Bytes.Apart
      omega
    · rw [hposition]
      unfold Bytes.Apart
      omega
  refine ⟨w', hstore, ?_, hs.size_eq.trans hsize, ?_, ?_⟩
  · rw [hs.position_eq, hposition]
    omega
  · intro start size hapart
    rw [hs.frame start size]
    · apply Bytes.slice_overwrite_apart hfit
      rw [hheader]
      exact (hapart.part (Nat.le_refl _) (by omega)).symm
    · intro f hf hstored
      have := hlaid.inside f hf hstored
      exact hapart.part (by omega) (by omega)
    · exact hapart.part (by omega) (by omega)
  -- A copy of the frame begins with the same header, so its reader starts where the writer did.
  · intro bytes' limit' hsame hlimit hbytes' hmax'
    have hread : Message.readFrame bytes' offset limit' m = _ :=
      Message.readFrame_of_header hbytes' (by omega) hmax' hblock
        ((Bytes.slice_eq_of_slice_eq hsame (Nat.le_refl _) (by omega)).trans hheaderBytes)
    set v := (Message.framed bytes' offset limit' hmax' m m.blockLength).window
    have hcarries : v.Carries w'.bytes offset
        (MessageHeader.size + m.blockLength + wireLengthFields m.fields contents) := ⟨hlimit, hsame⟩
    have hcopied : Copied m.fields (offset + MessageHeader.size)
        (wireLengthFields m.fields contents) w w' v := by
      refine ⟨rfl, rfl, ?_, hcarries.part (by omega) (by omega)⟩
      intro f hf hstored
      have := hlaid.inside f hf hstored
      exact hcarries.part (by omega) (by omega)
    obtain ⟨hshows, hmoved⟩ := hreads v hcopied
    refine ⟨hmax', hread, hshows, (congrArg Window.position hmoved).trans ?_⟩
    rw [Window.moved_position]
    change offset + MessageHeader.size + m.blockLength + _ = _
    omega

end SimpleBinary
