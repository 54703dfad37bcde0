import SimpleBinary.Market.Transcript
import SimpleBinary.Proofs.Embedding

namespace SimpleBinary

theorem MessageHeader.read_of_slice {bytes : Bytes} {h : MessageHeader} (hl : size ≤ bytes.length)
    (hh : bytes.slice 0 size = h.toBytes) : read bytes = .ok h := by
  have hword {start : Nat} (hs : start + 2 ≤ size) :
      bytes.slice start 2 = h.toBytes.slice start 2 := by
    rw [← hh, Bytes.slice_slice _ hs, Nat.zero_add]
  have hself := read_toBytes h
  rw [read, if_neg (by rw [length_toBytes]; omega)] at hself
  rw [← hself, read, if_neg (by omega)]
  change Except.ok (MessageHeader.mk (UInt16.ofNat (LittleEndian.decode (bytes.slice 0 2)))
    (UInt16.ofNat (LittleEndian.decode (bytes.slice 2 2)))
    (UInt16.ofNat (LittleEndian.decode (bytes.slice 4 2)))
    (UInt16.ofNat (LittleEndian.decode (bytes.slice 6 2)))) = _
  rw [hword (by decide), hword (by decide), hword (by decide), hword (by decide)]
  rfl

namespace Market

namespace Content

def stored : Content → List FieldContent
  | emptyBook content => content.stored
  | snapshot content => content.stored

def seen : Content → List FieldContent
  | emptyBook content => content.stored
  | snapshot content => content.seen

def represented : Content → Content
  | emptyBook content => emptyBook content.represented
  | snapshot content => snapshot content.represented

def Fits : Content → Prop
  | emptyBook _ => True
  | snapshot content => content.Fits

instance : (content : Content) → Decidable content.Fits
  | emptyBook _ => inferInstanceAs (Decidable True)
  | snapshot content => inferInstanceAs (Decidable content.Fits)

def frameLength (content : Content) : Nat :=
  content.definition.frameLength content.stored

def text (content : Content) : String :=
  content.definition.textOf schema.version content.definition.blockLength content.seen

def read (m : Message) : Except Error Content :=
  if m.definition.id = Snapshot.definition.id then (Snapshot.read m).1.map snapshot
  else (EmptyBook.read m).map emptyBook

theorem definition_mem (content : Content) : content.definition ∈ messages := by
  cases content with
  | emptyBook => exact List.mem_cons_self
  | snapshot => exact List.mem_cons_of_mem _ List.mem_cons_self

theorem messageFor?_id (content : Content) :
    messageFor? content.definition.id = some content.definition := by
  cases content <;> rfl

theorem schema_eq (content : Content) : content.definition.schema = schema := by
  cases content <;> rfl

theorem performs_write (content : Content) (m : Message) :
    Action.Performs m.withWindow content.write
      (storeFields m.offset true content.definition.fields content.stored) := by
  cases content with
  | emptyBook content => exact EmptyBook.performs_write content m
  | snapshot content => exact Snapshot.performs_write m content

variable {content : Content}

theorem Fits.seen_as (h : content.Fits) : SeenAs content.definition.fields
    content.definition.schema.version content.stored content.seen := by
  cases content with
  | emptyBook content => exact EmptyBook.seen content
  | snapshot content => exact Snapshot.Content.Fits.seen h

theorem Fits.admits_seen (h : content.Fits) :
    admitsFields content.definition.fields content.seen := by
  cases content with
  | emptyBook content => exact EmptyBook.admits_stored content
  | snapshot content => exact Snapshot.Content.Fits.admits_seen h

theorem read_of_shown {m : Message} (hm : m.definition = content.definition)
    (hversion : m.version = schema.version) (hw : m.window.limit ≤ m.window.bytes.length)
    (h : showsFields m.version m.definition.fields content.seen (m.body.walk m.window).1) :
    read m = .ok content.represented := by
  have hs : 2 ≤ m.version := by
    rw [hversion]
    decide
  rw [Block.walk, Message.body, hm] at h
  cases content with
  | emptyBook content =>
    have hid : ¬ m.definition.id = Snapshot.definition.id := by
      rw [hm]
      change ¬ EmptyBook.definition.id = _
      decide
    rw [read, if_neg hid, EmptyBook.read_of_shown hs hw h]
    rfl
  | snapshot content =>
    have hid : m.definition.id = Snapshot.definition.id := by rw [hm]; rfl
    rw [read, if_pos hid, Snapshot.read_of_shown hs hw h]
    rfl

theorem Fits.writeFrame (h : content.Fits) {bytes : Bytes} {offset limit : Nat}
    (hbytes : limit ≤ bytes.length) (hmax : limit ≤ Window.maxPosition)
    (hroom : offset + content.frameLength ≤ limit) :
    ∃ bytes', content.writeFrame offset limit bytes = (.ok content.frameLength, bytes') ∧
      Filled offset content.frameLength
        (content.definition.ShownAt content.seen offset (offset + content.frameLength))
        bytes bytes' := by
  obtain ⟨hblock, hlaid, -⟩ :=
    MessageDef.wellFormed_iff.mp (wellFormed_of_mem content.definition_mem)
  obtain ⟨w, hstore, hposition, hfilled⟩ :=
    MessageDef.fill_frame hblock hlaid h.seen_as hbytes hmax hroom
  refine ⟨w.bytes, ?_, hfilled⟩
  set m := Message.framed
    (bytes.overwrite offset (MessageHeader.ofMessage content.definition).toBytes) offset limit
    hmax content.definition content.definition.blockLength
  have hheader : offset + (MessageHeader.size + content.definition.blockLength) ≤ limit := by
    unfold frameLength MessageDef.frameLength at hroom
    omega
  have hframe : Message.writeFrame offset limit content.definition bytes =
      (.ok m, m.window.bytes) :=
    Message.writeFrame_of_le hbytes hheader hmax
  -- The accessors perform the store of the content, so the frame is filled with it.
  have hwrite : content.write m = (.ok ⟨⟩, m.withWindow w) := by
    have hperforms := content.performs_write m m.window
    have hstored : storeFields m.offset true content.definition.fields content.stored m.window =
        (.ok ⟨⟩, w) := hstore
    rwa [hstored] at hperforms
  have hlength : MessageHeader.size + (m.withWindow w).encodedLength = content.frameLength := by
    have hend : (m.withWindow w).encodedLength = w.position - (offset + MessageHeader.size) := rfl
    rw [hend, hposition]
    unfold frameLength MessageDef.frameLength
    omega
  rw [Content.writeFrame, Action.bind_of_ok hframe, Action.onPart_apply]
  have hfilled : (content.write >>= fun _ => do
      return MessageHeader.size + (← get).encodedLength : Action Message Nat) m =
        (.ok content.frameLength, m.withWindow w) := by
    rw [Action.bind_of_ok hwrite, ← hlength]
    rfl
  exact congrArg (fun r : Except Error Nat × Message => (r.1, r.2.window.bytes)) hfilled

structure ReadAs (content : Content) (m : Message) : Prop where
  read : Content.read m = .ok content.represented
  text : m.report.2.1 = content.text

theorem Fits.readAs (h : content.Fits) {bytes : Bytes} {offset stop limit : Nat}
    (hbytes : limit ≤ bytes.length)
    (hshown : content.definition.ShownAt content.seen offset stop bytes limit) :
    let m := Message.framed bytes offset limit hshown.limit_le_max content.definition
      content.definition.blockLength
    content.ReadAs m ∧ m.report.2.2 = .ok ⟨⟩ ∧
      m.report.1.encodedLength = stop - (offset + MessageHeader.size) := by
  intro m
  obtain ⟨-, -, hwf⟩ := MessageDef.wellFormed_iff.mp (wellFormed_of_mem content.definition_mem)
  have hreport := Message.report_of_shown (m := m) (portable_of_mem content.definition_mem) hwf
    hbytes h.admits_seen hshown.shows
  have hversion : m.version = schema.version := congrArg SchemaInfo.version content.schema_eq
  refine ⟨⟨read_of_shown rfl hversion hbytes hshown.shows, ?_⟩, ?_, ?_⟩
  · rw [hreport, hversion]
    rfl
  · rw [hreport]
  · rw [hreport, Message.encodedLength, Message.position, hshown.stop_eq]
    rfl

theorem header_of_shown {bytes : Bytes} {offset stop limit : Nat}
    (hshown : content.definition.ShownAt content.seen offset stop bytes limit) :
    ∃ header : MessageHeader,
      MessageHeader.read (bytes.slice offset (limit - offset)) = .ok header ∧
        messageFor? header.templateId = some content.definition := by
  obtain ⟨header, hslice, hvalid, hbytes, hle, -⟩ := Message.header_of_readFrame hshown.read
  have hlength : (bytes.slice offset (limit - offset)).length = limit - offset :=
    Bytes.length_slice (by omega)
  refine ⟨header, MessageHeader.read_of_slice (by omega) ?_, ?_⟩
  · rw [Bytes.slice_slice _ (by omega)]
    exact hslice
  · rw [(MessageHeader.validate_eq_ok.mp hvalid).1, messageFor?_id]

end Content

namespace Stream

def length (contents : List Content) : Nat :=
  (contents.map Content.frameLength).sum

/-- The loop over the frames from `offset` up to `total`: the messages that it comes to, and the
offset that it ends with. -/
def visit (bytes : Bytes) (total offset : Nat) : Except Error (List Message × Nat) := do
  if offset < total then
    let header ← MessageHeader.read (bytes.slice offset (total - offset))
    match messageFor? header.templateId with
    | none => return ([], offset)
    | some definition =>
      let m ← Message.readFrame bytes offset total definition
      m.report.2.2
      let (visited, stop) ← visit bytes total
        (offset + (MessageHeader.size + m.report.1.encodedLength))
      return (m :: visited, stop)
  else return ([], offset)
termination_by total - offset
decreasing_by
  have : MessageHeader.size = 8 := rfl
  omega

theorem report_eq_visit (bytes : Bytes) (total offset : Nat) :
    report bytes total offset = (visit bytes total offset).map fun visited =>
      String.join (visited.1.map fun m => m.report.2.1 ++ "\n") := by
  fun_induction visit bytes total offset with
  | case1 offset hlt ih =>
    rw [report, if_pos hlt]
    cases hheader : MessageHeader.read (bytes.slice offset (total - offset)) with
    | error e => rfl
    | ok header =>
      rw [Action.ok_bind, Action.ok_bind]
      cases hdefinition : messageFor? header.templateId with
      | none => rfl
      | some definition =>
        dsimp only
        cases hread : Message.readFrame bytes offset total definition with
        | error e => rfl
        | ok m =>
          rw [Action.ok_bind, Action.ok_bind]
          cases m.report.2.2 with
          | error e => rfl
          | ok _ =>
            rw [Action.ok_bind, Action.ok_bind, ih m]
            rcases visit bytes total (offset + (MessageHeader.size + m.report.1.encodedLength))
              with e | ⟨visited, stop⟩
            · rfl
            · exact congrArg Except.ok String.join_cons.symm
  | case2 offset hge =>
    rw [report, if_neg hge]
    rfl

def Shown : List Content → Nat → Bytes → Nat → Prop
  | [], _, _, _ => True
  | content :: rest, offset, bytes, limit =>
    content.definition.ShownAt content.seen offset (offset + content.frameLength) bytes limit ∧
      Shown rest (offset + content.frameLength) bytes limit

theorem visit_of_shown (contents : List Content) (hfit : ∀ content ∈ contents, content.Fits)
    {bytes : Bytes} {total : Nat} (hbytes : total ≤ bytes.length) (offset : Nat)
    (hend : offset + length contents = total) (hshown : Shown contents offset bytes total) :
    ∃ visited, visit bytes total offset = .ok (visited, total) ∧
      List.Forall₂ Content.ReadAs contents visited := by
  induction contents generalizing offset with
  | nil =>
    have hge : ¬ offset < total := by
      rw [← hend]
      exact Nat.lt_irrefl _
    refine ⟨[], ?_, .nil⟩
    rw [visit, if_neg hge, ← hend]
    rfl
  | cons content rest ih =>
    obtain ⟨hfirst, hothers⟩ := hshown
    have hlength : length (content :: rest) = content.frameLength + length rest := rfl
    have hsize : MessageHeader.size ≤ content.frameLength := by
      unfold Content.frameLength MessageDef.frameLength
      omega
    have hlt : offset < total := by
      have : MessageHeader.size = 8 := rfl
      omega
    obtain ⟨hread, hresult, hencoded⟩ := (hfit content List.mem_cons_self).readAs hbytes hfirst
    obtain ⟨header, hheader, hdefinition⟩ := Content.header_of_shown hfirst
    -- The loop steps by the length of what was read, which is that of the frame.
    have hnext : MessageHeader.size + (Message.framed bytes offset total hfirst.limit_le_max
        content.definition content.definition.blockLength).report.1.encodedLength =
          content.frameLength := by
      rw [hencoded]
      omega
    obtain ⟨visited, hvisit, hall⟩ := ih
      (fun other hother => hfit other (List.mem_cons_of_mem content hother))
      (offset + content.frameLength) (by omega) hothers
    refine ⟨_, ?_, .cons hread hall⟩
    rw [visit, if_pos hlt, hheader, Action.ok_bind, hdefinition]
    dsimp only
    rw [hfirst.read, Action.ok_bind, hresult, Action.ok_bind, hnext, hvisit]
    rfl

theorem write_append (limit : Nat) (earlier later : List Content) (offset : Nat) :
    write limit (earlier ++ later) offset = write limit earlier offset >>= write limit later := by
  induction earlier generalizing offset with
  | nil => rfl
  | cons content rest ih =>
    rw [List.cons_append, write, write, bind_assoc]
    simp only [ih]

theorem write_filled (contents : List Content) (hfit : ∀ content ∈ contents, content.Fits)
    {bytes : Bytes} {limit : Nat} (hbytes : limit ≤ bytes.length)
    (hmax : limit ≤ Window.maxPosition) (offset : Nat)
    (hroom : offset + length contents ≤ limit) :
    ∃ bytes', write limit contents offset bytes = (.ok (offset + length contents), bytes') ∧
      Filled offset (length contents) (Shown contents offset) bytes bytes' := by
  induction contents generalizing offset bytes with
  | nil => exact ⟨bytes, rfl, .nil fun _ _ => trivial⟩
  | cons content rest ih =>
    have hlength : length (content :: rest) = content.frameLength + length rest := rfl
    have hfirst : offset + content.frameLength ≤ limit := by omega
    obtain ⟨bytes₁, hframe, hfilled⟩ :=
      (hfit content List.mem_cons_self).writeFrame hbytes hmax hfirst
    obtain ⟨bytes₂, hwrite, hothers⟩ := ih
      (fun other hother => hfit other (List.mem_cons_of_mem content hother))
      (hfilled.size_eq ▸ hbytes) (offset + content.frameLength) (by omega)
    refine ⟨bytes₂, ?_, hfilled.append hothers⟩
    rw [write, Action.bind_of_ok hframe, hwrite, hlength, Nat.add_assoc]

theorem length_append (earlier later : List Content) :
    length (earlier ++ later) = length earlier + length later := by
  unfold length
  rw [List.map_append, List.sum_append]

theorem write_behind {earlier later : List Content}
    (hfit : ∀ content ∈ earlier ++ later, content.Fits) {bytes bytes' : Bytes}
    {offset limit stop : Nat} (hbytes : limit ≤ bytes.length) (hmax : limit ≤ Window.maxPosition)
    (hroom : offset + length (earlier ++ later) ≤ limit)
    (h : write limit (earlier ++ later) offset bytes = (.ok stop, bytes')) :
    ∃ before, write limit earlier offset bytes = (.ok (offset + length earlier), before) ∧
      write limit later (offset + length earlier) before = (.ok stop, bytes') ∧
      bytes'.take (offset + length earlier) = before.take (offset + length earlier) := by
  rw [length_append] at hroom
  obtain ⟨before, hbefore, hkept⟩ := write_filled earlier
    (fun content hc => hfit content (List.mem_append_left later hc)) hbytes hmax offset (by omega)
  obtain ⟨after, hafter, hlater⟩ := write_filled later
    (fun content hc => hfit content (List.mem_append_right earlier hc))
    (hkept.size_eq ▸ hbytes) hmax (offset + length earlier) (by omega)
  rw [write_append, Action.bind_of_ok hbefore] at h
  obtain ⟨-, rfl⟩ := Prod.mk.inj (hafter.symm.trans h)
  exact ⟨before, hbefore, h, hlater.take_eq⟩

theorem texts_of_read {contents : List Content} {visited : List Message}
    (h : List.Forall₂ Content.ReadAs contents visited) :
    visited.map (fun m => m.report.2.1 ++ "\n") =
      contents.map fun content => content.text ++ "\n" := by
  induction h with
  | nil => rfl
  | cons hfirst _ ih => rw [List.map_cons, List.map_cons, hfirst.text, ih]

theorem visit_filled (contents : List Content) (hfit : ∀ content ∈ contents, content.Fits)
    {bytes : Bytes} {offset limit : Nat} (hbytes : limit ≤ bytes.length)
    (hmax : limit ≤ Window.maxPosition) (hroom : offset + length contents ≤ limit) :
    ∃ bytes' visited,
      write limit contents offset bytes = (.ok (offset + length contents), bytes') ∧
      visit bytes' (offset + length contents) offset =
        .ok (visited, offset + length contents) ∧
      List.Forall₂ Content.ReadAs contents visited := by
  obtain ⟨bytes', hwrite, hfilled⟩ := write_filled contents hfit hbytes hmax offset hroom
  have hlength : offset + length contents ≤ bytes'.length := by
    rw [hfilled.size_eq]
    exact hroom.trans hbytes
  have hshown := hfilled.shown bytes' (offset + length contents) rfl (Nat.le_refl _) hlength
    (hroom.trans hmax)
  obtain ⟨visited, hvisit, hread⟩ := visit_of_shown contents hfit hlength offset rfl hshown
  exact ⟨bytes', visited, hwrite, hvisit, hread⟩

/-- What is written of contents that fit, one frame behind the other, is visited frame by frame: the
loop reads each content as its fields represent it, prints it, and ends at the end of the last
frame. A later frame changes nothing in front of it. -/
theorem visit_write (contents : List Content) (hfit : ∀ content ∈ contents, content.Fits)
    (bytes : Bytes) (offset limit : Nat) (hbytes : limit ≤ bytes.length)
    (hmax : limit ≤ Window.maxPosition) (hroom : offset + length contents ≤ limit) :
    ∃ bytes' visited,
      write limit contents offset bytes = (.ok (offset + length contents), bytes') ∧
      (∀ earlier later, contents = earlier ++ later → ∃ before,
        write limit earlier offset bytes = (.ok (offset + length earlier), before) ∧
        write limit later (offset + length earlier) before =
          (.ok (offset + length contents), bytes') ∧
        bytes'.take (offset + length earlier) = before.take (offset + length earlier)) ∧
      visit bytes' (offset + length contents) offset =
        .ok (visited, offset + length contents) ∧
      List.Forall₂ Content.ReadAs contents visited ∧
      report bytes' (offset + length contents) offset =
        .ok (String.join (contents.map fun content => content.text ++ "\n")) := by
  obtain ⟨bytes', visited, hwrite, hvisit, hread⟩ := visit_filled contents hfit hbytes hmax hroom
  refine ⟨bytes', visited, hwrite, ?_, hvisit, hread, ?_⟩
  · rintro earlier later rfl
    exact write_behind hfit hbytes hmax hroom hwrite
  · rw [report_eq_visit, hvisit, Except.map, texts_of_read hread]

theorem visit_write_streamContents :
    ∃ bytes' visited,
      write 512 Transcript.streamContents 0 (List.replicate 512 0) = (.ok 140, bytes') ∧
      (∀ earlier later, Transcript.streamContents = earlier ++ later → ∃ before,
        write 512 earlier 0 (List.replicate 512 0) = (.ok (0 + length earlier), before) ∧
        write 512 later (0 + length earlier) before = (.ok 140, bytes') ∧
        bytes'.take (0 + length earlier) = before.take (0 + length earlier)) ∧
      visit bytes' 140 0 = .ok (visited, 140) ∧
      List.Forall₂ Content.ReadAs Transcript.streamContents visited ∧
      report bytes' 140 0 = .ok (String.join
        (Transcript.streamContents.map fun content => content.text ++ "\n")) := by
  have hfit : ∀ content ∈ Transcript.streamContents, content.Fits := by decide
  have hlength : 0 + length Transcript.streamContents = 140 := by decide
  have hvisit := visit_write Transcript.streamContents hfit (List.replicate 512 0) 0 512
    (Nat.le_of_eq List.length_replicate.symm) (by decide) (by decide)
  rwa [hlength] at hvisit

def unfaithful : List Content := [
  .emptyBook ⟨991, ⟨.ofBits 257 .uint16⟩, some 65535, some 0⟩,
  .snapshot {
    securityId := 42
    lastRptSeq := some 7
    symbol := "A\x00B"
    lowLimit := -100
    highLimit := 100
    entries := [⟨some 5, 1, none, .unknown 0x30, none, none⟩]
    memo := "memo" }]

theorem unfaithful_read :
    ∃ bytes' first second, write 110 unfaithful 0 (List.replicate 110 0) = (.ok 101, bytes') ∧
      visit bytes' 101 0 = .ok ([first, second], 101) ∧
      Content.read first = .ok (.emptyBook ⟨991, ⟨.ofBits 1 .uint8⟩, none, none⟩) ∧
      Content.read second = .ok (.snapshot {
        securityId := 42
        lastRptSeq := some 7
        symbol := "A"
        lowLimit := -100
        highLimit := 100
        entries := [⟨some 5, 1, none, .bid, none, none⟩]
        memo := "memo" }) ∧
      ¬ List.Forall₂ (fun content m => Content.read m = .ok content) unfaithful
        [first, second] := by
  have hfit : ∀ content ∈ unfaithful, content.Fits := by decide
  have hbytes : 110 ≤ (List.replicate 110 (0 : UInt8)).length := by decide
  have hroom : 0 + length unfaithful ≤ 110 := by decide
  obtain ⟨bytes', visited, hwrite, hvisit, hread⟩ :=
    visit_filled unfaithful hfit hbytes (by decide) hroom
  have hlength : 0 + length unfaithful = 101 := by decide
  rw [hlength] at hwrite hvisit
  obtain _ | ⟨hfirst, _ | ⟨hsecond, ⟨⟩⟩⟩ := hread
  refine ⟨bytes', _, _, hwrite, hvisit, hfirst.read, ?_, ?_⟩
  · rw [hsecond.read]
    rfl
  · rintro (_ | ⟨hwritten, -⟩)
    rw [hfirst.read] at hwritten
    cases hwritten

end Stream

end Market

end SimpleBinary
