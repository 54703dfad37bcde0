import SimpleBinary.Message.Basic
import SimpleBinary.Proofs.Access

namespace SimpleBinary

namespace MessageHeader

@[simp] theorem length_toBytes (h : MessageHeader) : h.toBytes.length = size := by
  simp only [toBytes, List.length_append, LittleEndian.length_encode, size]

theorem ofNat_decode_encode (n : UInt16) :
    UInt16.ofNat (LittleEndian.decode (LittleEndian.encode 2 n.toNat)) = n := by
  have hn : n.toNat < 256 ^ 2 := n.toNat_lt
  rw [LittleEndian.decode_encode, Nat.mod_eq_of_lt hn, UInt16.ofNat_toNat]

theorem read_toBytes (h : MessageHeader) : read h.toBytes = .ok h := by
  have hshort : ¬ h.toBytes.length < size := by rw [length_toBytes]; exact Nat.lt_irrefl _
  have hlen (n : UInt16) : (LittleEndian.encode 2 n.toNat).length = 2 :=
    LittleEndian.length_encode _ _
  have hself (n : UInt16) :
      (LittleEndian.encode 2 n.toNat).slice 0 2 = LittleEndian.encode 2 n.toNat :=
    Bytes.slice_self (Nat.le_of_eq (hlen n))
  have hblock : h.toBytes.slice 0 2 = LittleEndian.encode 2 h.blockLength.toNat := by
    rw [toBytes, Bytes.slice_append_left, Bytes.slice_append_left, Bytes.slice_append_left, hself]
      <;> simp
  have htemplate : h.toBytes.slice 2 2 = LittleEndian.encode 2 h.templateId.toNat := by
    rw [toBytes, Bytes.slice_append_left, Bytes.slice_append_left, Bytes.slice_append_right, hlen,
      hself] <;> simp
  have hschema : h.toBytes.slice 4 2 = LittleEndian.encode 2 h.schemaId.toNat := by
    rw [toBytes, Bytes.slice_append_left, Bytes.slice_append_right, List.length_append, hlen, hlen,
      hself] <;> simp
  have hversion : h.toBytes.slice 6 2 = LittleEndian.encode 2 h.version.toNat := by
    rw [toBytes, Bytes.slice_append_right, List.length_append, List.length_append, hlen, hlen, hlen,
      hself]
    simp
  rw [read, if_neg hshort]
  change Except.ok (MessageHeader.mk (UInt16.ofNat (LittleEndian.decode (h.toBytes.slice 0 2)))
    (UInt16.ofNat (LittleEndian.decode (h.toBytes.slice 2 2)))
    (UInt16.ofNat (LittleEndian.decode (h.toBytes.slice 4 2)))
    (UInt16.ofNat (LittleEndian.decode (h.toBytes.slice 6 2)))) = _
  rw [hblock, htemplate, hschema, hversion, ofNat_decode_encode, ofNat_decode_encode,
    ofNat_decode_encode, ofNat_decode_encode]

theorem validate_ofMessage (m : MessageDef) : (ofMessage m).validate m = .ok ⟨⟩ := by
  simp only [validate, ofMessage, ne_eq, not_true_eq_false, if_false]

theorem validate_eq_ok {h : MessageHeader} {m : MessageDef} :
    h.validate m = .ok ⟨⟩ ↔ h.templateId = m.id ∧ h.schemaId = m.schema.id := by
  unfold validate
  split
  next hid => simp [hid]
  next hid =>
    split
    next hschema => simp [hschema]
    next hschema => simp [Classical.not_not.mp hid, Classical.not_not.mp hschema]

theorem eq_ofMessage {h : MessageHeader} {m : MessageDef} (hv : h.validate m = .ok ⟨⟩)
    (hversion : h.version = m.schema.version) (hblock : h.blockLength.toNat = m.blockLength) :
    h = ofMessage m := by
  obtain ⟨blockLength, templateId, schemaId, version⟩ := h
  obtain ⟨rfl, rfl⟩ := validate_eq_ok.mp hv
  rw [ofMessage, ← hblock, UInt16.ofNat_toNat, ← hversion]

theorem encode_decode_word {part : Bytes} (h : part.length = 2) :
    LittleEndian.encode 2 (UInt16.ofNat (LittleEndian.decode part)).toNat = part := by
  have hlt : LittleEndian.decode part < UInt16.size := by
    have hword := LittleEndian.decode_lt part
    rw [h] at hword
    exact hword
  rw [UInt16.toNat_ofNat_of_lt' hlt, ← h, LittleEndian.encode_decode]

theorem toBytes_of_read {part : Bytes} {h : MessageHeader} (hl : part.length = size)
    (hr : read part = .ok h) : h.toBytes = part := by
  have hword {start : Nat} (hs : start + 2 ≤ size) : (part.slice start 2).length = 2 :=
    Bytes.length_slice (by omega)
  have hparts : part = part.slice 0 2 ++ part.slice 2 2 ++ part.slice 4 2 ++ part.slice 6 2 := by
    rw [← Bytes.slice_add, ← Bytes.slice_add, ← Bytes.slice_add]
    exact (Bytes.slice_self (Nat.le_of_eq hl)).symm
  rw [read, if_neg (by omega)] at hr
  cases hr
  change LittleEndian.encode 2 (UInt16.ofNat (LittleEndian.decode (part.slice 0 2))).toNat ++
    LittleEndian.encode 2 (UInt16.ofNat (LittleEndian.decode (part.slice 2 2))).toNat ++
    LittleEndian.encode 2 (UInt16.ofNat (LittleEndian.decode (part.slice 4 2))).toNat ++
    LittleEndian.encode 2 (UInt16.ofNat (LittleEndian.decode (part.slice 6 2))).toNat = part
  rw [encode_decode_word (hword (by decide)), encode_decode_word (hword (by decide)),
    encode_decode_word (hword (by decide)), encode_decode_word (hword (by decide)), ← hparts]

end MessageHeader

namespace Message

variable {bytes : Bytes} {offset limit : Nat} {m : MessageDef}

theorem wrapForDecode_eq {blockLength : Nat} {version : UInt16} :
    wrapForDecode bytes offset limit blockLength version m =
      if Window.maxPosition < offset + blockLength then
        .error (.bufferTooShort Window.maxPosition limit)
      else (Window.open? bytes limit (offset + blockLength) version).map fun window =>
        ⟨window, m, offset, none, blockLength⟩ := by
  simp only [wrapForDecode]
  cases Window.open? bytes limit (offset + blockLength) version <;> rfl

theorem wrapForDecode_eq_ok_iff {blockLength : Nat} {version : UInt16} {message : Message} :
    wrapForDecode bytes offset limit blockLength version m = .ok message ↔
      offset + blockLength ≤ Window.maxPosition ∧ offset + blockLength ≤ limit ∧
        limit ≤ bytes.length ∧ ∃ hmax, message =
          ⟨⟨bytes, limit, offset + blockLength, version, hmax⟩, m, offset, none, blockLength⟩ := by
  rw [wrapForDecode_eq]
  constructor
  · intro h
    split at h
    · cases h
    · rename_i hmax
      cases hopen : Window.open? bytes limit (offset + blockLength) version with
      | error e =>
        rw [hopen] at h
        cases h
      | ok w =>
        rw [hopen] at h
        cases h
        obtain ⟨hlimit, hstop, hm, rfl⟩ := Window.open?_eq_ok.mp hopen
        exact ⟨Nat.le_of_not_lt hmax, hstop, hlimit, hm, rfl⟩
  · rintro ⟨hmax, hl, hbytes, hm, rfl⟩
    have hopen : Window.open? bytes limit (offset + blockLength) version = _ :=
      Window.open?_eq_ok.mpr ⟨hbytes, hl, hm, rfl⟩
    rw [if_neg (Nat.not_lt.mpr hmax), hopen]
    rfl

theorem wrapForDecode_eq_ok {blockLength : Nat} {version : UInt16} {message : Message}
    (h : wrapForDecode bytes offset limit blockLength version m = .ok message) :
    offset + blockLength ≤ limit ∧ limit ≤ bytes.length ∧ ∃ hmax,
      message = ⟨⟨bytes, limit, offset + blockLength, version, hmax⟩, m, offset, none,
        blockLength⟩ :=
  (wrapForDecode_eq_ok_iff.mp h).2

theorem wrapForDecode_of_le {blockLength : Nat} (hbytes : limit ≤ bytes.length)
    (hl : offset + blockLength ≤ limit) (hmax : limit ≤ Window.maxPosition) (version : UInt16) :
    wrapForDecode bytes offset limit blockLength version m =
      .ok ⟨⟨bytes, limit, offset + blockLength, version, hmax⟩, m, offset, none, blockLength⟩ :=
  wrapForDecode_eq_ok_iff.mpr ⟨Nat.le_trans hl hmax, hl, hbytes, hmax, rfl⟩

theorem writeFrame_of_le (hbytes : limit ≤ bytes.length)
    (hl : offset + (MessageHeader.size + m.blockLength) ≤ limit)
    (hmax : limit ≤ Window.maxPosition) :
    writeFrame offset limit m bytes =
      (.ok ⟨⟨bytes.overwrite offset (MessageHeader.ofMessage m).toBytes, limit,
          offset + MessageHeader.size + m.blockLength, m.schema.version, hmax⟩, m,
          offset + MessageHeader.size, some offset, m.blockLength⟩,
        bytes.overwrite offset (MessageHeader.ofMessage m).toBytes) := by
  have hopen : Window.open? bytes limit offset m.schema.version = _ :=
    Window.open?_eq_ok.mpr ⟨hbytes, by omega, hmax, rfl⟩
  have hlength : (bytes.overwrite offset (MessageHeader.ofMessage m).toBytes).length =
      bytes.length :=
    Bytes.length_overwrite (by rw [MessageHeader.length_toBytes]; omega)
  have hwrap : wrapForEncode (bytes.overwrite offset (MessageHeader.ofMessage m).toBytes)
      (offset + MessageHeader.size) limit m = _ :=
    wrapForDecode_of_le (by omega) (by omega) hmax m.schema.version
  have hcheck : (⟨bytes, limit, offset, m.schema.version, hmax⟩ : Window).check offset
      (MessageHeader.size + m.blockLength) = _ := Window.check_of_le hl
  simp only [writeFrame, Action.bind_apply, Action.get_apply, Action.lift_apply, hopen,
    Action.discard_apply, hcheck, Except.map, Action.modify_apply, hwrap, Action.pure_apply]

theorem readFrame_eq_ok {message : Message} (h : readFrame bytes offset limit m = .ok message) :
    ∃ blockLength version inner,
      wrapForDecode bytes (offset + MessageHeader.size) limit blockLength version m = .ok inner ∧
        message = { inner with headerOffset := some offset } := by
  obtain ⟨probe, -, h⟩ := Action.except_bind_eq_ok h
  obtain ⟨part, -, h⟩ := Action.except_bind_eq_ok h
  obtain ⟨header, -, h⟩ := Action.except_bind_eq_ok h
  obtain ⟨_, -, h⟩ := Action.except_bind_eq_ok h
  obtain ⟨inner, hinner, h⟩ := Action.except_bind_eq_ok h
  cases h
  exact ⟨_, _, inner, hinner, rfl⟩

theorem header_of_readFrame {message : Message} (h : readFrame bytes offset limit m = .ok message) :
    ∃ header : MessageHeader, bytes.slice offset MessageHeader.size = header.toBytes ∧
      header.validate m = .ok ⟨⟩ ∧ limit ≤ bytes.length ∧
      offset + MessageHeader.size + header.blockLength.toNat ≤ limit ∧
      ∃ hmax, message = ⟨⟨bytes, limit, offset + MessageHeader.size + header.blockLength.toNat,
        header.version, hmax⟩, m, offset + MessageHeader.size, some offset,
        header.blockLength.toNat⟩ := by
  obtain ⟨probe, hopen, h⟩ := Action.except_bind_eq_ok h
  obtain ⟨hlimit, -, _, rfl⟩ := Window.open?_eq_ok.mp hopen
  obtain ⟨part, hread, h⟩ := Action.except_bind_eq_ok h
  obtain ⟨hle, rfl⟩ := Window.read_eq_ok.mp hread
  obtain ⟨header, hheader, h⟩ := Action.except_bind_eq_ok h
  obtain ⟨_, hvalid, h⟩ := Action.except_bind_eq_ok h
  obtain ⟨inner, hinner, h⟩ := Action.except_bind_eq_ok h
  obtain ⟨hstop, -, hmax, rfl⟩ := wrapForDecode_eq_ok hinner
  cases h
  have hlength : (bytes.slice offset MessageHeader.size).length = MessageHeader.size :=
    Bytes.length_slice (Nat.le_trans hle hlimit)
  exact ⟨header, (MessageHeader.toBytes_of_read hlength hheader).symm, hvalid, hlimit, hstop, hmax,
    rfl⟩

theorem writeFrame_eq_ok {message : Message} {bytes' : Bytes}
    (h : writeFrame offset limit m bytes = (.ok message, bytes')) :
    ∃ inner, wrapForEncode bytes' (offset + MessageHeader.size) limit m = .ok inner ∧
      message = { inner with headerOffset := some offset } := by
  obtain ⟨before, bytes₁, -, h⟩ := Action.bind_eq_ok h
  obtain ⟨window, bytes₂, -, h⟩ := Action.bind_eq_ok h
  obtain ⟨_, bytes₃, -, h⟩ := Action.bind_eq_ok h
  obtain ⟨_, bytes₄, -, h⟩ := Action.bind_eq_ok h
  obtain ⟨after, bytes₅, hafter, h⟩ := Action.bind_eq_ok h
  cases hafter
  obtain ⟨inner, bytes₆, hinner, h⟩ := Action.bind_eq_ok h
  obtain ⟨hwrap, rfl⟩ := Prod.mk.inj hinner
  cases h
  exact ⟨inner, hwrap, rfl⟩

theorem readFrame_of_slice {h : MessageHeader} (hbytes : limit ≤ bytes.length)
    (hl : offset + (MessageHeader.size + h.blockLength.toNat) ≤ limit)
    (hmax : limit ≤ Window.maxPosition)
    (hh : bytes.slice offset MessageHeader.size = h.toBytes) (hm : h.validate m = .ok ⟨⟩) :
    readFrame bytes offset limit m =
      .ok ⟨⟨bytes, limit, offset + MessageHeader.size + h.blockLength.toNat, h.version,
        hmax⟩, m, offset + MessageHeader.size, some offset, h.blockLength.toNat⟩ := by
  have hopen : Window.open? bytes limit offset 0 = _ :=
    Window.open?_eq_ok.mpr ⟨hbytes, by omega, hmax, rfl⟩
  have hread : (⟨bytes, limit, offset, 0, hmax⟩ : Window).read offset MessageHeader.size =
      .ok h.toBytes := by
    rw [Window.read_of_le (by simp only; omega), hh]
  have hwrap : wrapForDecode bytes (offset + MessageHeader.size) limit h.blockLength.toNat
      h.version m = _ :=
    wrapForDecode_of_le hbytes (by omega) hmax h.version
  simp only [readFrame, hopen, Action.ok_bind, hread, MessageHeader.read_toBytes, hm, hwrap]
  rfl

theorem readFrame_of_header (hbytes : limit ≤ bytes.length)
    (hl : offset + (MessageHeader.size + m.blockLength) ≤ limit)
    (hmax : limit ≤ Window.maxPosition) (hblock : m.blockLength < UInt16.size)
    (hh : bytes.slice offset MessageHeader.size = (MessageHeader.ofMessage m).toBytes) :
    readFrame bytes offset limit m =
      .ok ⟨⟨bytes, limit, offset + MessageHeader.size + m.blockLength, m.schema.version,
        hmax⟩, m, offset + MessageHeader.size, some offset, m.blockLength⟩ := by
  have hlength : (MessageHeader.ofMessage m).blockLength.toNat = m.blockLength :=
    UInt16.toNat_ofNat_of_lt' hblock
  rw [readFrame_of_slice hbytes (by omega) hmax hh (MessageHeader.validate_ofMessage m),
    hlength]
  rfl

theorem skip_of_wrapped {m : Message} (hm : m.window.position = m.offset + m.blockLength)
    (hle : m.window.position ≤ m.window.limit) :
    skip m = match skipFields m.definition.fields m.window with
      | (.ok _, w) => (.ok (w.position - m.offset), { m with window := w })
      | (.error e, w) => (.error e, { m with window := w }) := by
  have hrewind : rewind m = m := by
    rw [rewind, ← hm, Window.seek_of_le hle]
  cases hskip : skipFields m.definition.fields m.window with
  | mk result w =>
    cases result with
    | ok a =>
      simp only [skip, Action.bind_apply, Action.modify_apply, hrewind, Action.get_apply, onWindow,
        Action.onPart_apply, hskip, Action.pure_apply, encodedLength, position]
    | error e =>
      simp only [skip, Action.bind_apply, Action.modify_apply, hrewind, Action.get_apply, onWindow,
        Action.onPart_apply, hskip]

end Message

end SimpleBinary
