import Mathlib.Algebra.Order.BigOperators.Group.List
import SimpleBinary.Proofs.JsonImport
import SimpleBinary.Proofs.JsonWalk

namespace SimpleBinary

mutual

def Field.mostBehind : Field → Nat
  | ⟨_, _, _, .group g, _, _, _⟩ =>
    g.dimension.encodedLength +
      g.numInGroupMember.primitive.rawMax * (g.blockLength + mostBehindFields g.fields)
  | ⟨_, _, _, .data d, _, _, _⟩ =>
    d.headerLength + d.lengthMember.primitive.rawMax * d.varDataMember.primitive.size
  | _ => 0

def mostBehindFields : List Field → Nat
  | [] => 0
  | f :: rest => f.mostBehind + mostBehindFields rest

end

theorem Field.mostBehind_group {f : Field} {g : GroupDef} (hk : f.kind = .group g) :
    f.mostBehind = g.dimension.encodedLength +
      g.numInGroupMember.primitive.rawMax * (g.blockLength + mostBehindFields g.fields) := by
  obtain ⟨name, id, offset, kind, presence, constant, since⟩ := f
  cases hk
  rfl

theorem Field.mostBehind_data {f : Field} {d : DataDef} (hk : f.kind = .data d) :
    f.mostBehind =
      d.headerLength + d.lengthMember.primitive.rawMax * d.varDataMember.primitive.size := by
  obtain ⟨name, id, offset, kind, presence, constant, since⟩ := f
  cases hk
  rfl

theorem wireLength_le : TableInduction
    (fun f => ∀ content, f.admits content → f.wireLength content ≤ f.mostBehind)
    (fun fields => ∀ contents, admitsFields fields contents →
      wireLengthFields fields contents ≤ mostBehindFields fields) :=
  .of_fixed
    (fun f hgroup hdata content _ => by
      rw [Field.wireLength_of_fixed (Field.isFixed_of_kind hgroup hdata)]
      exact Nat.zero_le _)
    (fun f g hk ih content ha => by
      obtain ⟨contents, rfl, hcount, ha⟩ := Field.admits_group hk ha
      have hsum :
          (contents.map fun element => g.blockLength + wireLengthFields g.fields element).sum ≤
            contents.length * (g.blockLength + mostBehindFields g.fields) := by
        rw [← Nat.nsmul_eq_mul, ← List.length_map]
        apply List.sum_le_card_nsmul
        intro length hlength
        obtain ⟨element, helement, rfl⟩ := List.mem_map.mp hlength
        exact Nat.add_le_add_left (ih element (ha element helement)) _
      rw [Field.wireLength_group hk, Field.mostBehind_group hk]
      exact Nat.add_le_add_left (Nat.le_trans hsum (Nat.mul_le_mul_right _ hcount)) _)
    (fun f d hk content ha => by
      obtain ⟨bytes, rfl, hrest, hcount⟩ := Field.admits_data hk ha
      have hlength : bytes.length = d.elementCount bytes * d.varDataMember.primitive.size :=
        (Nat.div_mul_cancel (Nat.dvd_of_mod_eq_zero hrest)).symm
      rw [Field.wireLength_data hk, Field.mostBehind_data hk, hlength]
      exact Nat.add_le_add_left (Nat.mul_le_mul_right _ hcount) _)
    (fun contents _ => by
      cases contents <;> exact Nat.le_refl 0)
    (fun f rest hf ih contents ha => by
      cases contents with
      | nil => exact Nat.zero_le _
      | cons content contents => exact Nat.add_le_add (hf content ha.1) (ih contents ha.2))

open JsonValues

section

variable {J : Type} [JsonValues J]

theorem Message.toJson_eq (m : Message) :
    m.toJson = match fieldsToJson m.offset true m.definition.fields m.window with
      | (.ok members, w) => (.ok (object [("template", string m.definition.name),
          ("fields", object members)] : J), { m with window := w })
      | (.error e, w) => (.error e, { m with window := w }) := by
  cases hfields : (fieldsToJson m.offset true m.definition.fields :
    Action Window (List (String × J))) m.window with
  | mk result w =>
    cases result with
    | ok members =>
      simp only [toJson, Action.bind_apply, Action.get_apply, onWindow, Action.onPart_apply,
        hfields, Action.pure_apply]
    | error e =>
      simp only [toJson, Action.bind_apply, Action.get_apply, onWindow, Action.onPart_apply,
        hfields]

namespace MessageDef

variable {d : MessageDef} {contents : List FieldContent}

def jsonOf (d : MessageDef) (contents : List FieldContent) : J :=
  object [("template", string d.name), ("fields", object (membersOf d.fields contents))]

theorem member_template [LawfulJsonValues J] (d : MessageDef) (contents : List FieldContent) :
    member (d.jsonOf contents : J) "template" = string d.name := by
  apply member_of_mem
  · exact List.nodup_cons.mpr ⟨by simp, List.nodup_singleton _⟩
  · exact List.mem_cons_self

theorem member_fields [LawfulJsonValues J] (d : MessageDef) (contents : List FieldContent) :
    member (d.jsonOf contents : J) "fields" = object (membersOf d.fields contents) := by
  apply member_of_mem
  · exact List.nodup_cons.mpr ⟨by simp, List.nodup_singleton _⟩
  · exact List.mem_cons_of_mem _ List.mem_cons_self

def frameLength (d : MessageDef) (contents : List FieldContent) : Nat :=
  MessageHeader.size + d.blockLength + wireLengthFields d.fields contents

def framed (d : MessageDef) {bytes : Bytes} (hmax : bytes.length ≤ Window.maxPosition) : Window :=
  ⟨bytes.overwrite 0 (MessageHeader.ofMessage d).toBytes, bytes.length,
    MessageHeader.size + d.blockLength, d.schema.version, hmax⟩

/-- What an import of content leaves: the frame, and the content stored in it. -/
structure Imported (d : MessageDef) (contents : List FieldContent) {bytes : Bytes}
    (hmax : bytes.length ≤ Window.maxPosition) (w : Window) : Prop where
  store_eq : storeFields MessageHeader.size true d.fields contents (d.framed hmax) = (.ok ⟨⟩, w)
  stored : Stored d.fields MessageHeader.size (wireLengthFields d.fields contents) (d.framed hmax) w
  shown : ∀ v, Copied d.fields MessageHeader.size (wireLengthFields d.fields contents)
    (d.framed hmax) w v →
      showsFields d.schema.version d.fields contents
        (walkFields MessageHeader.size true d.fields v).1

variable {bytes : Bytes} {hmax : bytes.length ≤ Window.maxPosition} {templates : List MessageDef}

theorem length_framed (hlength : d.frameLength contents ≤ bytes.length) :
    (d.framed hmax).bytes.length = bytes.length := by
  unfold frameLength at hlength
  apply Bytes.length_overwrite
  rw [MessageHeader.length_toBytes]
  omega

theorem room_framed (hlength : d.frameLength contents ≤ bytes.length) :
    Room MessageHeader.size d.blockLength (wireLengthFields d.fields contents) (d.framed hmax) :=
  ⟨Nat.le_refl _, hlength, Nat.le_of_eq (length_framed hlength).symm, hmax⟩

theorem copied_framed (hwf : d.wellFormed) (w : Window) {limit : Nat}
    (hlimit : d.frameLength contents ≤ limit) (hword : limit ≤ Window.maxPosition) :
    Copied d.fields MessageHeader.size (wireLengthFields d.fields contents) (d.framed hmax) w
      ⟨w.bytes, limit, MessageHeader.size + d.blockLength, d.schema.version, hword⟩ := by
  obtain ⟨-, hlaid, -⟩ := wellFormed_iff.mp hwf
  unfold frameLength at hlimit
  refine ⟨rfl, rfl, ?_, hlimit, rfl⟩
  intro f hf hstored
  have := hlaid.inside f hf hstored
  exact ⟨by simp only; omega, rfl⟩

theorem importJson_jsonOf [LawfulJsonValues J] (hwf : d.wellFormed) (hp : d.portable)
    (hfind : templates.find? (·.name == d.name) = some d) (ha : admitsFields d.fields contents)
    (hl : legibleFields d.fields contents) (hlength : d.frameLength contents ≤ bytes.length)
    (hmax : bytes.length ≤ Window.maxPosition) :
    ∃ w, Imported d contents hmax w ∧
      importJson templates (d.jsonOf contents : J) bytes =
        (.ok (d.frameLength contents), w.bytes) := by
  obtain ⟨-, hlaid, hfields⟩ := wellFormed_iff.mp hwf
  obtain ⟨hnames, hportable⟩ := portable_iff.mp hp
  unfold frameLength at hlength ⊢
  have hframe : Message.writeFrame 0 bytes.length d bytes = _ :=
    Message.writeFrame_of_le (Nat.le_refl _) (by omega) hmax
  rw [Nat.zero_add] at hframe
  obtain ⟨w, hstore, hs, hreads⟩ := canRoundTrip.table d.fields MessageHeader.size d.blockLength
    contents (d.framed hmax) hfields hlaid ha (room_framed hlength)
  refine ⟨w, ⟨hstore, hs, fun v hv => (hreads v hv).1⟩, ?_⟩
  have himport := (imports.table d.fields : ImportsFields J d.fields).object (w := d.framed hmax)
    hportable hnames hfields ha hl MessageHeader.size
  rw [ImportAction.ofAction_of_ok hstore, framed] at himport
  have hsize : MessageHeader.size + (w.position - MessageHeader.size) =
      MessageHeader.size + d.blockLength + wireLengthFields d.fields contents := by
    have hposition : w.position = MessageHeader.size + d.blockLength +
      wireLengthFields d.fields contents := hs.position_eq
    omega
  rw [importJson, member_template]
  simp only [LawfulJsonValues.toString?_string, Option.getD_some, hfind, member_fields]
  rw [ImportAction.get_bind, ImportAction.bind_apply, ImportAction.ofAction_of_ok hframe]
  dsimp only [ImportAction.onPart_apply]
  rw [ImportAction.bind_apply, himport, ← hsize]
  rfl

namespace Imported

variable {w : Window}

theorem length_eq (h : Imported d contents hmax w)
    (hlength : d.frameLength contents ≤ bytes.length) : w.bytes.length = bytes.length :=
  h.stored.size_eq.trans (length_framed hlength)

theorem slice_header (h : Imported d contents hmax w) :
    w.bytes.slice 0 MessageHeader.size = (MessageHeader.ofMessage d).toBytes := by
  have hheader := MessageHeader.length_toBytes (.ofMessage d)
  rw [h.stored.frame, framed, ← hheader, Bytes.slice_overwrite (Nat.zero_le _)]
  · intro f _ _
    unfold Bytes.Apart
    omega
  · unfold Bytes.Apart
    simp only [framed]
    omega

theorem readFrame_eq (hwf : d.wellFormed) (h : Imported d contents hmax w)
    (hlength : d.frameLength contents ≤ bytes.length) {limit : Nat}
    (hlimit : d.frameLength contents ≤ limit) (hlimit' : limit ≤ bytes.length) :
    Message.readFrame w.bytes 0 limit d =
      .ok ⟨⟨w.bytes, limit, MessageHeader.size + d.blockLength, d.schema.version,
        Nat.le_trans hlimit' hmax⟩, d, MessageHeader.size, some 0, d.blockLength⟩ := by
  obtain ⟨hblock, -⟩ := wellFormed_iff.mp hwf
  have hbytes := h.length_eq hlength
  have hheader := h.slice_header
  unfold frameLength at hlimit
  have hread : Message.readFrame w.bytes 0 limit d = _ :=
    Message.readFrame_of_header (by omega) (by omega) (Nat.le_trans hlimit' hmax) hblock hheader
  rwa [Nat.zero_add] at hread

theorem toJson_eq (hwf : d.wellFormed) (hp : d.portable) (h : Imported d contents hmax w)
    (ha : admitsFields d.fields contents) (hlength : d.frameLength contents ≤ bytes.length)
    {limit : Nat} (hlimit : d.frameLength contents ≤ limit) (hlimit' : limit ≤ bytes.length) :
    ∃ m, Message.toJson ⟨⟨w.bytes, limit, MessageHeader.size + d.blockLength, d.schema.version,
      Nat.le_trans hlimit' hmax⟩, d, MessageHeader.size, some 0, d.blockLength⟩ =
        (.ok (d.jsonOf contents : J), m) := by
  obtain ⟨-, -, hfields⟩ := wellFormed_iff.mp hwf
  obtain ⟨-, hportable⟩ := portable_iff.mp hp
  have hword := Nat.le_trans hlimit' hmax
  have hshown := h.shown _ (copied_framed hwf w hlimit hword)
  have hexport := (exportsShown (J := J)).table d.fields MessageHeader.size contents
    ⟨w.bytes, limit, MessageHeader.size + d.blockLength, d.schema.version, hword⟩ hportable hfields
    (by rw [h.length_eq hlength]; exact hlimit') ha hshown
  rw [Message.toJson_eq, hexport]
  exact ⟨_, rfl⟩

end Imported

end MessageDef

end

theorem Market.portable_of_mem {d : MessageDef} (h : d ∈ Market.messages) : d.portable := by
  have hall : ∀ d ∈ Market.messages, d.portable := by decide +kernel
  exact hall d h

theorem Market.find_of_mem {d : MessageDef} (h : d ∈ Market.messages) :
    Market.messages.find? (·.name == d.name) = some d := by
  rcases List.mem_cons.mp h with rfl | h
  · rfl
  · rw [List.mem_singleton.mp h]
    rfl

theorem Market.frameLength_le {d : MessageDef} (h : d ∈ Market.messages)
    {contents : List FieldContent} (ha : admitsFields d.fields contents) :
    d.frameLength contents ≤ 8710 := by
  have hall : ∀ d ∈ Market.messages,
      MessageHeader.size + d.blockLength + mostBehindFields d.fields ≤ 8710 := by decide +kernel
  exact Nat.le_trans (Nat.add_le_add_left (wireLength_le.table d.fields contents ha) _) (hall d h)

/-- Whatever version a message has been written in and however long its blocks are, what is exported
of it is imported into any buffer that has room, for which the longest message is enough, as a
message of the current version and block length that is exported as the same. -/
theorem Message.json_kept_by_import {J : Type} [JsonValues J] [LawfulJsonValues J]
    (d : MessageDef) (hd : d ∈ Market.messages) (bytes : Bytes)
    (offset limit : Nat) (m m' : Message) (hm : Message.readFrame bytes offset limit d = .ok m)
    (json : J) (hjson : m.toJson = (.ok json, m'))
    (hlegible : legibleReadings (m.body.walk m.window).1) :
    ∃ size ≤ 8710, ∀ target : Bytes, size ≤ target.length → target.length ≤ Window.maxPosition →
      ∃ target', MessageDef.importJson Market.messages json target = (.ok size, target') ∧
        target'.length = target.length ∧
        ∀ limit', size ≤ limit' → limit' ≤ target'.length →
          ∃ imported after, Message.readFrame target' 0 limit' d = .ok imported ∧
            imported.version = d.schema.version ∧ imported.blockLength = d.blockLength ∧
            imported.toJson = (.ok json, after) := by
  have hwf := Market.wellFormed_of_mem hd
  have hp := Market.portable_of_mem hd
  obtain ⟨-, -, hfields⟩ := MessageDef.wellFormed_iff.mp hwf
  obtain ⟨-, hportable⟩ := MessageDef.portable_iff.mp hp
  obtain ⟨blockLength, version, inner, hwrap, rfl⟩ := Message.readFrame_eq_ok hm
  obtain ⟨-, hlimit, _, rfl⟩ := Message.wrapForDecode_eq_ok hwrap
  rw [Message.toJson_eq] at hjson
  dsimp only at hjson
  split at hjson
  · next members w hmembers =>
    cases hjson
    obtain ⟨-, contents, ha, hl, rfl⟩ := exportsContent.table d.fields (offset + MessageHeader.size)
      d.schema.version _ w members hportable hfields hlimit hmembers hlegible
    -- The size is that of the content, whatever version and blocks it was read from.
    refine ⟨d.frameLength contents, Market.frameLength_le hd ha, ?_⟩
    intro target htarget hmax
    obtain ⟨w', himported, himport⟩ :=
      MessageDef.importJson_jsonOf (J := J) hwf hp (Market.find_of_mem hd) ha hl htarget hmax
    refine ⟨w'.bytes, himport, himported.length_eq htarget, ?_⟩
    intro limit' hsize hlimit'
    rw [himported.length_eq htarget] at hlimit'
    obtain ⟨after, hexport⟩ := himported.toJson_eq (J := J) hwf hp ha htarget hsize hlimit'
    exact ⟨_, after, himported.readFrame_eq hwf htarget hsize hlimit', rfl, rfl, hexport⟩
  · cases hjson

def Market.Snapshot.olderFrame : Bytes :=
  [28, 0, 71, 0, 2, 0, 1, 0] ++
    [7, 0, 0, 0, 0, 0, 0, 0, 0, 0, 0, 0, 0x41, 0x42, 0, 9, 0, 0, 0, 0, 106, 255, 255, 255, 150, 0,
      0, 0] ++
    [29, 0, 1] ++
    [125, 0, 0, 0, 0, 0, 0, 0, 40, 0, 0, 0, 0, 0, 0, 0, 255, 255, 255, 255, 255, 255, 255, 255,
      0x5a, 72, 0, 0, 0] ++
    [2, 0x68, 0x69]

theorem Message.json_kept_by_import_older :
    ∃ m json m', readFrame Market.Snapshot.olderFrame 0 71 Market.Snapshot.definition = .ok m ∧
      m.version = 1 ∧ m.toJson = (.ok (json : JsonTree), m') ∧
      ∃ size ≤ 8710, ∀ target : Bytes, size ≤ target.length → target.length ≤ Window.maxPosition →
        ∃ target', MessageDef.importJson Market.messages json target = (.ok size, target') ∧
          target'.length = target.length ∧
          ∀ limit', size ≤ limit' → limit' ≤ target'.length →
            ∃ imported after,
              readFrame target' 0 limit' Market.Snapshot.definition = .ok imported ∧
              imported.version = Market.Snapshot.definition.schema.version ∧
              imported.blockLength = Market.Snapshot.definition.blockLength ∧
              imported.toJson = (.ok json, after) := by
  have hread : readFrame Market.Snapshot.olderFrame 0 71 Market.Snapshot.definition =
      .ok ⟨⟨Market.Snapshot.olderFrame, 71, 36, 1, by decide⟩, Market.Snapshot.definition, 8,
        some 0, 28⟩ := rfl
  obtain ⟨json, m', hjson⟩ := Action.exists_of_isOk (x := toJson (J := JsonTree))
    (s := ⟨⟨Market.Snapshot.olderFrame, 71, 36, 1, by decide⟩, Market.Snapshot.definition, 8,
      some 0, 28⟩)
    (by decide +kernel)
  exact ⟨_, json, m', hread, rfl, hjson,
    json_kept_by_import Market.Snapshot.definition
      (List.mem_cons_of_mem _ List.mem_cons_self) Market.Snapshot.olderFrame 0 71 _ m' hread json
      hjson (by decide +kernel)⟩

end SimpleBinary
