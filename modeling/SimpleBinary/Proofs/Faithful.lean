import SimpleBinary.Proofs.Migration
import SimpleBinary.Proofs.Reproduction

namespace SimpleBinary

/-- The message is what a writer of the current schema leaves in zeros: it has the current version
and blocks of the current lengths, all of it is there, and what no field settles is zero. -/
structure Message.Canonical (m : Message) : Prop where
  version_eq : m.version = m.definition.schema.version
  blockLength_eq : m.blockLength = m.definition.blockLength
  complete : completeReadings (m.body.walk m.window).1
  sized : sizedFields m.definition.fields (m.body.walk m.window).1
  padded : ∀ f ∈ m.definition.fields, f.isText →
    (m.window.bytes.slice (m.offset + f.offset) f.extent).ZeroPadded
  unused : ∀ i < m.blockLength, ¬ Occupied m.definition.fields i →
    m.window.bytes[m.offset + i]? = some 0

theorem Market.EmptyBook.occupied_iff {i : Nat} (hi : i < definition.blockLength) :
    Occupied definition.fields i ↔ i ≠ 9 := by
  have hall : ∀ i < definition.blockLength, (Occupied definition.fields i ↔ i ≠ 9) := by decide
  exact hall i hi

theorem Market.Snapshot.covers : Covers definition.fields definition.blockLength := by
  decide +kernel

namespace MessageDef.Imported

variable {d : MessageDef} {contents : List FieldContent} {bytes : Bytes}
  {hmax : bytes.length ≤ Window.maxPosition} {w : Window}

theorem slice_apart (h : Imported d contents hmax w)
    (hlength : d.frameLength contents ≤ bytes.length) {start size : Nat}
    (hheader : MessageHeader.size ≤ start)
    (hfixed : ∀ f ∈ d.fields, f.isStored →
      Bytes.Apart start size (MessageHeader.size + f.offset) f.extent)
    (hbehind : Bytes.Apart start size (MessageHeader.size + d.blockLength)
      (wireLengthFields d.fields contents)) :
    w.bytes.slice start size = bytes.slice start size := by
  have hsize := MessageHeader.length_toBytes (.ofMessage d)
  unfold frameLength at hlength
  rw [h.stored.frame start size hfixed hbehind, framed]
  apply Bytes.slice_overwrite_apart
  · omega
  · unfold Bytes.Apart
    omega

theorem byte_unused (h : Imported d contents hmax w)
    (hlength : d.frameLength contents ≤ bytes.length) {i : Nat} (hi : i < d.blockLength)
    (hunused : ¬ Occupied d.fields i) :
    w.bytes[MessageHeader.size + i]? = bytes[MessageHeader.size + i]? := by
  have hslice : w.bytes.slice (MessageHeader.size + i) 1 =
      bytes.slice (MessageHeader.size + i) 1 := by
    apply h.slice_apart hlength (Nat.le_add_right _ _)
    · intro f hf hs
      have hout : ¬ (f.offset ≤ i ∧ i < f.offset + f.extent) :=
        fun hin => hunused ⟨f, hf, hs, hin⟩
      unfold Bytes.Apart
      omega
    · unfold Bytes.Apart
      omega
  exact Bytes.getElem?_of_slice_eq hslice Nat.zero_lt_one

theorem slice_behind (h : Imported d contents hmax w)
    (hlaid : LaidOut d.fields d.blockLength) (hlength : d.frameLength contents ≤ bytes.length)
    (size : Nat) :
    w.bytes.slice (d.frameLength contents) size = bytes.slice (d.frameLength contents) size := by
  unfold frameLength at hlength ⊢
  apply h.slice_apart hlength (by omega)
  · intro f hf hs
    have := hlaid.inside f hf hs
    unfold Bytes.Apart
    omega
  · unfold Bytes.Apart
    omega

theorem bytes_of_zeros {n : Nat} {hmax : (List.replicate n (0 : UInt8)).length ≤ Window.maxPosition}
    (h : Imported d contents hmax w)
    (hlaid : LaidOut d.fields d.blockLength) (hn : d.frameLength contents ≤ n) :
    w.bytes = w.bytes.slice 0 (d.frameLength contents) ++
      List.replicate (n - d.frameLength contents) 0 := by
  have hlength : d.frameLength contents ≤ (List.replicate n (0 : UInt8)).length := by
    rwa [List.length_replicate]
  have hrest : w.bytes.slice (d.frameLength contents) (n - d.frameLength contents) =
      List.replicate (n - d.frameLength contents) 0 := by
    rw [h.slice_behind hlaid hlength, Bytes.slice, List.drop_replicate, List.take_replicate,
      Nat.min_self]
  have hwhole := Bytes.slice_add w.bytes 0 (d.frameLength contents) (n - d.frameLength contents)
  rw [Nat.zero_add, Nat.add_sub_cancel' hn, hrest, Bytes.slice_self] at hwhole
  · exact hwhole
  · rw [h.length_eq hlength, List.length_replicate]

theorem slice_frame (h : Imported d contents hmax w)
    (hlength : d.frameLength contents ≤ bytes.length) {u : Window}
    {offset limit : Nat} {hword : limit ≤ Window.maxPosition}
    (hposition : u.position = offset + MessageHeader.size + d.blockLength)
    (hheader : u.bytes.slice offset MessageHeader.size = (MessageHeader.ofMessage d).toBytes)
    (hunused : ∀ i < d.blockLength, ¬ Occupied d.fields i →
      u.bytes[offset + MessageHeader.size + i]? = bytes[MessageHeader.size + i]?)
    (hfields : Reproduced d.fields (offset + MessageHeader.size) MessageHeader.size
      (wireLengthFields d.fields contents) u
      ⟨w.bytes, limit, MessageHeader.size + d.blockLength, d.schema.version, hword⟩) :
    w.bytes.slice 0 (d.frameLength contents) = u.bytes.slice offset (d.frameLength contents) := by
  have hblock : w.bytes.slice MessageHeader.size d.blockLength =
      u.bytes.slice (offset + MessageHeader.size) d.blockLength := by
    apply Bytes.slice_congr
    intro i hi
    by_cases hoccupied : Occupied d.fields i
    · exact hfields.byte_eq hoccupied
    · rw [h.byte_unused hlength hi hoccupied, hunused i hi hoccupied]
  have hbehind : w.bytes.slice (MessageHeader.size + d.blockLength)
      (wireLengthFields d.fields contents) =
        u.bytes.slice u.position (wireLengthFields d.fields contents) := hfields.behind
  rw [frameLength, Bytes.slice_add, Bytes.slice_add, Bytes.slice_add, Bytes.slice_add,
    h.slice_header, hheader, Nat.zero_add, hblock, Nat.zero_add, hbehind, hposition, Nat.add_assoc]

end MessageDef.Imported

theorem Market.gapless_of_mem {d : MessageDef} (h : d ∈ Market.messages) :
    gaplessFields d.fields := by
  have hall : ∀ d ∈ Market.messages, gaplessFields d.fields := by decide +kernel
  exact hall d h

/-- A canonical message is exported, and what is exported of it is imported into zeros as the very
bytes of its frame. -/
theorem Message.bytes_kept_by_json {J : Type} [JsonValues J] [LawfulJsonValues J]
    (d : MessageDef) (hd : d ∈ Market.messages) (bytes : Bytes) (offset limit : Nat) (m : Message)
    (hm : Message.readFrame bytes offset limit d = .ok m) (hcanonical : m.Canonical)
    (hlegible : legibleReadings (m.body.walk m.window).1) :
    ∃ (json : J) (after : Message), m.toJson = (.ok json, after) ∧
      ∀ n, MessageHeader.size + after.encodedLength ≤ n → n ≤ Window.maxPosition →
        MessageDef.importJson Market.messages json (List.replicate n 0) =
          (.ok (MessageHeader.size + after.encodedLength),
            bytes.slice offset (MessageHeader.size + after.encodedLength) ++
              List.replicate (n - (MessageHeader.size + after.encodedLength)) 0) := by
  have hwf := Market.wellFormed_of_mem hd
  have hp := Market.portable_of_mem hd
  obtain ⟨-, hlaid, hfields⟩ := MessageDef.wellFormed_iff.mp hwf
  obtain ⟨-, hportable⟩ := MessageDef.portable_iff.mp hp
  obtain ⟨header, hslice, hvalid, hlimit, hstop, hword, rfl⟩ := header_of_readFrame hm
  obtain ⟨hversion, hblock, hcomplete, hsized, hpadded, hunused⟩ := hcanonical
  obtain rfl : header = .ofMessage d := MessageHeader.eq_ofMessage hvalid hversion hblock
  dsimp only at hblock hcomplete hsized hpadded hunused hlegible
  rw [hblock] at hstop hcomplete hsized hunused hlegible ⊢
  set u : Window := ⟨bytes, limit, offset + MessageHeader.size + d.blockLength, d.schema.version,
    hword⟩ with hu
  -- What the walk reads is content, which is what the export and the import have in common.
  obtain ⟨contents, ha, hl, hshows⟩ := showsContent.table d.fields (offset + MessageHeader.size) u
    hportable hfields hlimit hcomplete hsized hlegible
  have hexport := (exportsShown (J := J)).table d.fields (offset + MessageHeader.size) contents u
    hportable hfields hlimit ha hshows
  obtain ⟨hmoved, hstores⟩ := reproduces.table d.fields (offset + MessageHeader.size) contents u
    hportable (Market.gapless_of_mem hd) hfields hlimit (hlaid.within hstop) ha hpadded hshows
  rw [hmoved] at hexport
  set after : Message := ⟨u.moved (wireLengthFields d.fields contents), d,
    offset + MessageHeader.size, some offset, d.blockLength⟩ with hafter
  have hjson : toJson ⟨u, d, offset + MessageHeader.size, some offset, d.blockLength⟩ =
      (.ok (d.jsonOf contents : J), after) := by
    rw [Message.toJson_eq, hexport]
    rfl
  have hsize : MessageHeader.size + after.encodedLength = d.frameLength contents := by
    simp only [hafter, hu, encodedLength, position, Window.moved_position, MessageDef.frameLength]
    omega
  refine ⟨_, _, hjson, ?_⟩
  rw [hsize]
  intro n hn hmax
  have hlength : d.frameLength contents ≤ (List.replicate n (0 : UInt8)).length := by
    rwa [List.length_replicate]
  have hmax' : (List.replicate n (0 : UInt8)).length ≤ Window.maxPosition := by
    rwa [List.length_replicate]
  obtain ⟨w, himported, himport⟩ := MessageDef.importJson_jsonOf (J := J) hwf hp
    (Market.find_of_mem hd) ha hl hlength hmax'
  obtain ⟨w', hstore, -, hfound⟩ := hstores MessageHeader.size d.blockLength
    (d.framed hmax') rfl hlaid (MessageDef.room_framed hlength)
  rw [himported.store_eq] at hstore
  cases hstore
  -- The fields are reproduced from the content, and what no field settles is zero on both sides.
  have hframe : w.bytes.slice 0 (d.frameLength contents) =
      bytes.slice offset (d.frameLength contents) := by
    apply himported.slice_frame hlength (u := u) rfl hslice
    · intro i hi hoccupied
      have hinside : MessageHeader.size + i < n := by
        unfold MessageDef.frameLength at hn
        omega
      rw [hu, hunused i hi hoccupied, List.getElem?_replicate, if_pos hinside]
    · exact hfound _ (MessageDef.copied_framed hwf w (Nat.le_refl _) (Nat.le_trans hn hmax))
  rw [himport, himported.bytes_of_zeros hlaid hn, hframe]

def Market.Snapshot.currentFrame : Bytes :=
  [28, 0, 71, 0, 2, 0, 2, 0] ++
    [7, 0, 0, 0, 0, 0, 0, 0, 0, 0, 0, 0, 0x41, 0x42, 0, 0, 0, 0, 0, 0, 106, 255, 255, 255, 150, 0,
      0, 0] ++
    [33, 0, 1] ++
    [0, 0, 0, 0, 0, 0, 0, 128, 40, 0, 0, 0, 0, 0, 0, 0, 255, 255, 255, 255, 255, 255, 255, 255,
      0x5a, 72, 0, 0, 0, 1, 0, 0, 0] ++
    [2, 0x68, 0x69]

theorem Message.bytes_kept_by_json_snapshot :
    ∃ m json after, readFrame Market.Snapshot.currentFrame 0 75 Market.Snapshot.definition = .ok m ∧
      m.Canonical ∧ m.toJson = (.ok (json : JsonTree), after) ∧
      ∀ n, MessageHeader.size + after.encodedLength ≤ n → n ≤ Window.maxPosition →
        MessageDef.importJson Market.messages json (List.replicate n 0) =
          (.ok (MessageHeader.size + after.encodedLength),
            Market.Snapshot.currentFrame.slice 0 (MessageHeader.size + after.encodedLength) ++
              List.replicate (n - (MessageHeader.size + after.encodedLength)) 0) := by
  have hread : readFrame Market.Snapshot.currentFrame 0 75 Market.Snapshot.definition =
      .ok ⟨⟨Market.Snapshot.currentFrame, 75, 36, 2, by decide⟩, Market.Snapshot.definition, 8,
        some 0, 28⟩ := rfl
  have hcanonical : Canonical
      ⟨⟨Market.Snapshot.currentFrame, 75, 36, 2, by decide⟩, Market.Snapshot.definition, 8, some 0,
        28⟩ :=
    ⟨rfl, rfl, by decide +kernel, by decide +kernel, by decide +kernel, by decide +kernel⟩
  obtain ⟨json, after, hjson, himport⟩ := bytes_kept_by_json (J := JsonTree)
    Market.Snapshot.definition (List.mem_cons_of_mem _ List.mem_cons_self)
    Market.Snapshot.currentFrame 0 75 _ hread hcanonical (by decide +kernel)
  exact ⟨_, json, after, hread, hcanonical, hjson, himport⟩

end SimpleBinary
