import SimpleBinary.Market.Schema
import SimpleBinary.Proofs.Frame
import SimpleBinary.Proofs.Layout

namespace SimpleBinary

theorem Window.Holds.sameBlock {w w' : Window} {a : Bytes} (h : w.Holds a) (h' : w'.Holds a)
    (hv : w'.version = w.version) (size size' : Nat) :
    SameBlock (w.moved size) (w'.moved size') w.position w'.position a.length where
  version_eq := hv
  read_eq _ _ hle := (Window.read_part h' hle).trans (Window.read_part h hle).symm
  stop_lt := w.lt_of_le_limit h.le
  stop_lt' := w'.lt_of_le_limit h'.le

theorem SameBlock.moved {w w' : Window} {base base' length : Nat}
    (h : SameBlock w w' base base' length) (size size' : Nat) :
    SameBlock (w.moved size) (w'.moved size') base base' length :=
  ⟨h.version_eq, h.read_eq, h.stop_lt, h.stop_lt'⟩

structure Extending (w w' : Window) (base base' length : Nat) (part part' : Bytes) : Prop where
  same : SameBlock w w' base base' length
  holds : w.Holds part
  holds' : w'.Holds part'

namespace Extending

variable {w w' : Window} {base base' length : Nat} {a a' b b' : Bytes}

theorem left (h : Extending w w' base base' length (a ++ b) (a' ++ b')) :
    Extending w w' base base' length a a' :=
  { h with holds := h.holds.left, holds' := h.holds'.left }

theorem right (h : Extending w w' base base' length (a ++ b) (a' ++ b')) :
    Extending (w.moved a.length) (w'.moved a'.length) base base' length b b' :=
  { h with
    same := h.same.moved _ _
    holds := h.holds.right
    holds' := h.holds'.right }

end Extending

def Field.Transparent (f : Field) : Prop :=
  ∀ (w w' : Window) (base base' length : Nat) (part part' : Bytes), f.flat → f.framed →
    Extending w w' base base' length part part' → f.InBlock w.version length 0 →
    f.Extended w.version part part' →
    ∃ reading reading', f.walk base true w = (reading, w.moved part.length) ∧
      f.walk base' true w' = (reading', w'.moved part'.length) ∧ reading.Matches reading'

def TransparentFields (fields : List Field) : Prop :=
  ∀ (w w' : Window) (base base' length : Nat) (part part' : Bytes), flatFields fields →
    framedFields fields → Extending w w' base base' length part part' →
    InBlockFields w.version length fields 0 → ExtendedFields w.version fields part part' →
    ∃ readings readings', walkFields base true fields w = (readings, w.moved part.length) ∧
      walkFields base' true fields w' = (readings', w'.moved part'.length) ∧
      MatchingReadings readings readings'

namespace Field

variable {f : Field} {version : UInt16} {part part' : Bytes}

theorem transparent_of_fixed (hf : f.isFixed) : f.Transparent := by
  intro w w' base base' length part part' hflat _ h hin hextended
  obtain ⟨rfl, rfl⟩ := (extended_of_fixed hf).mp hextended
  obtain ⟨reading, hw, hw'⟩ := h.same.walk_fixed.field f hf hflat 0 true fun _ => hin
  exact ⟨reading, reading, hw, hw', .refl reading⟩

theorem walk_data_of_fills {d : DataDef} (hk : f.kind = .data d) (hd : d.LengthInside)
    {w : Window} (hv : f.since ≤ w.version) {header payload : Bytes}
    (hf : d.Fills part header payload) (hh : w.Holds part) (base : Nat) :
    f.walk base true w =
      (.data f.name (.ok (d.lengthMember.number header)) (.ok payload), w.moved part.length) := by
  have hvisible : f.inVersion w.version = true := decide_eq_true hv
  rw [hf.part_eq] at hh
  have hle := hh.le
  have hheader := hh.left
  have hpayload := hh.right
  rw [Window.Holds, hf.header_length] at hheader
  rw [hf.header_length] at hpayload
  rw [List.length_append] at hle
  have hmax := w.limit_le_max
  have hfollows : (f.dataView d true w.version).Follows w header payload := {
    visible := by rw [dataView, hvisible]; rfl
    inside := hd
    read_header := hheader
    read_payload := hpayload
    length_eq := hf.payload_length
    length_le := by omega }
  rw [walk_data hk, hfollows.value_eq,
    DataView.length_of_header hfollows.visible hd hfollows.read_header, hf.part_eq,
    List.length_append, hf.header_length]
  rfl

theorem walk_data_of_invisible {d : DataDef} (hk : f.kind = .data d) {w : Window}
    (hv : ¬ f.since ≤ w.version) (base : Nat) :
    f.walk base true w = (.data f.name (.ok 0) (.ok []), w) := by
  have hinvisible : f.inVersion w.version = false := decide_eq_false hv
  rw [walk_data hk, dataView, hinvisible]
  rfl

theorem transparent_data {d : DataDef} (hk : f.kind = .data d) : f.Transparent := by
  intro w w' base base' length part part' _ hframed h _ hextended
  have hd := (framed_data hk).mp hframed
  rw [extended_data hk] at hextended
  by_cases hv : f.since ≤ w.version
  · rw [if_pos hv] at hextended
    obtain ⟨rfl, header, payload, hf⟩ := hextended
    have hv' : f.since ≤ w'.version := by rw [h.same.version_eq]; exact hv
    exact ⟨_, _, walk_data_of_fills hk hd hv hf h.holds base,
      walk_data_of_fills hk hd hv' hf h.holds' base', .refl _⟩
  · rw [if_neg hv] at hextended
    obtain ⟨rfl, rfl⟩ := hextended
    have hv' : ¬ f.since ≤ w'.version := by rw [h.same.version_eq]; exact hv
    exact ⟨_, _, walk_data_of_invisible hk hv base, walk_data_of_invisible hk hv' base', .refl _⟩

end Field

theorem transparent_block {fields : List Field} (ih : TransparentFields fields)
    (hflat : flatFields fields) (hframed : framedFields fields) {version : UInt16}
    {length extra : Nat} {part part' : Bytes}
    (hextended : BlockExtended version fields length extra (ExtendedFields version fields) part
      part') {w w' : Window} (hv : w.version = version) (hv' : w'.version = version)
    (hh : w.Holds part) (hh' : w'.Holds part') :
    w.position + length ≤ w.limit ∧ w'.position + (length + extra) ≤ w'.limit ∧
      ∃ readings readings',
        walkFields w.position true fields (w.moved length) = (readings, w.moved part.length) ∧
        walkFields w'.position true fields (w'.moved (length + extra)) =
          (readings', w'.moved part'.length) ∧ MatchingReadings readings readings' := by
  obtain ⟨hinside, block, added, rest, rest', rfl, rfl, rfl, rfl, hrest⟩ := hextended
  rw [← List.length_append]
  refine ⟨hh.left.le, hh'.left.le, ?_⟩
  have hextending : Extending (w.moved block.length) (w'.moved (block ++ added).length)
      w.position w'.position block.length rest rest' := {
    same := hh.left.sameBlock hh'.left.left (hv'.trans hv.symm) _ _
    holds := hh.right
    holds' := hh'.right }
  obtain ⟨readings, readings', hw, hw', hmatch⟩ := ih _ _ _ _ _ _ _ hflat hframed hextending
    (by rw [Window.moved_version, hv]; exact hinside)
    (by rw [Window.moved_version, hv]; exact hrest)
  rw [Window.moved_moved, ← List.length_append] at hw hw'
  exact ⟨readings, readings', hw, hw', hmatch⟩

theorem transparent_elements {fields : List Field} (ih : TransparentFields fields)
    (hflat : flatFields fields) (hframed : framedFields fields) {version : UInt16}
    {length extra : Nat} {elements elements' : List Bytes}
    (hextended : List.Forall₂ (BlockExtended version fields length extra
      (ExtendedFields version fields)) elements elements') :
    ∀ (g g' : GroupView) (w w' : Window), g.blockLength = length → g'.blockLength = length + extra →
      g.index + elements.length = g.count → g'.index + elements.length = g'.count →
      w.version = version → w'.version = version →
      w.Holds elements.flatten → w'.Holds elements'.flatten →
      ∃ readings readings' it it',
        Walk.elements (fun base => walkFields base true fields) elements.length ⟨g, w⟩ =
          (readings, it) ∧
        Walk.elements (fun base => walkFields base true fields) elements.length ⟨g', w'⟩ =
          (readings', it') ∧
        it.window = w.moved elements.flatten.length ∧
        it'.window = w'.moved elements'.flatten.length ∧ MatchingElements readings readings' := by
  -- Both runs are free in the induction: from the second element on their positions differ.
  induction hextended with
  | nil =>
    intro g g' w w' _ _ _ _ _ _ _ _
    exact ⟨[], [], ⟨g, w⟩, ⟨g', w'⟩, rfl, rfl, rfl, rfl, .nil⟩
  | @cons element element' elements elements' helement _ ihelements =>
    intro g g' w w' hlength hlength' hcount hcount' hv hv' hh hh'
    rw [List.flatten_cons] at hh hh'
    rw [List.length_cons] at hcount hcount'
    obtain ⟨hfit, hfit', readings, readings', hw, hw', hmatch⟩ :=
      transparent_block ih hflat hframed helement hv hv' hh.left hh'.left
    rw [← hlength] at hfit hw
    rw [← hlength'] at hfit' hw'
    have hnext : Walk.elements (fun base => walkFields base true fields) (elements.length + 1)
        ⟨g, w⟩ = _ := Walk.elements_succ_of_le (by omega) hfit
    have hnext' : Walk.elements (fun base => walkFields base true fields) (elements.length + 1)
        ⟨g', w'⟩ = _ := Walk.elements_succ_of_le (by omega) hfit'
    rw [hw] at hnext
    rw [hw'] at hnext'
    obtain ⟨others, others', it, it', hothers, hothers', hend, hend', hmatches⟩ :=
      ihelements (g.entered w.position) (g'.entered w'.position) (w.moved element.length)
        (w'.moved element'.length) hlength hlength'
        (show g.index + 1 + elements.length = g.count by omega)
        (show g'.index + 1 + elements.length = g'.count by omega) hv hv' hh.right
        hh'.right
    refine ⟨.ok readings :: others, .ok readings' :: others', it, it', ?_, ?_, ?_, ?_,
      .cons hmatch hmatches⟩
    · rw [List.length_cons, hnext, hothers]
    · rw [List.length_cons, hnext', hothers']
    · rw [hend, Window.moved_moved, List.flatten_cons, ← List.length_append]
    · rw [hend', Window.moved_moved, List.flatten_cons, ← List.length_append]

namespace Field

variable {f : Field}

theorem transparent_group {g : GroupDef} (hk : f.kind = .group g)
    (ih : TransparentFields g.fields) : f.Transparent := by
  intro w w' base base' length part part' hflat hframed h _ hextended
  obtain ⟨hmembers, hfields⟩ := (framed_group hk).mp hframed
  rw [extended_group hk] at hextended
  by_cases hv : f.since ≤ w.version
  · rw [if_pos hv] at hextended
    obtain ⟨header, header', extra, elements, elements', hl, rfl, rfl, hcount, hextended⟩ :=
      hextended
    have hv' : f.since ≤ w'.version := by rw [h.same.version_eq]; exact hv
    have hcount' : elements.length = g.numInGroupMember.number header' := by
      rw [hl.count_eq, hcount]
    obtain ⟨readings, readings', it, it', he, he', hend, hend', hmatch⟩ :=
      transparent_elements ih ((flat_group hk).mp hflat) hfields hextended
        ⟨f, g, w.position, g.blockLengthMember.number header, elements.length, 0, none, true⟩
        ⟨f, g, w'.position, g.blockLengthMember.number header', elements.length, 0, none, true⟩
        (w.moved header.length) (w'.moved header'.length) rfl hl.blockLength_eq (Nat.zero_add _)
        (Nat.zero_add _) rfl h.same.version_eq h.holds.right h.holds'.right
    have hw := walk_group_of_header hk hmembers hv h.holds.left hl.length_eq hcount he base
    have hw' := walk_group_of_header hk hmembers hv' h.holds'.left hl.length_eq' hcount' he' base'
    rw [hend, Window.moved_moved, ← List.length_append] at hw
    rw [hend', Window.moved_moved, ← List.length_append] at hw'
    exact ⟨_, _, hw, hw', .group _ _ _ _ hmatch⟩
  · rw [if_neg hv] at hextended
    obtain ⟨rfl, rfl⟩ := hextended
    have hv' : ¬ f.since ≤ w'.version := by rw [h.same.version_eq]; exact hv
    exact ⟨_, _, walk_group_of_invisible hk hv base, walk_group_of_invisible hk hv' base', .refl _⟩

end Field

theorem transparent : TableInduction Field.Transparent TransparentFields := by
  apply TableInduction.of_fixed
  · intro f h h'
    exact Field.transparent_of_fixed (Field.isFixed_of_kind h h')
  · intro f g hk ih
    exact Field.transparent_group hk ih
  · intro f d hk
    exact Field.transparent_data hk
  · intro w w' base base' length part part' _ _ _ _ hextended
    obtain ⟨rfl, rfl⟩ := hextended
    exact ⟨[], [], rfl, rfl, .nil⟩
  · intro f rest hf ih w w' base base' length part part' hflat hframed h hin hextended
    obtain ⟨a, a', b, b', rfl, rfl, hfirst, hothers⟩ := hextended
    obtain ⟨reading, reading', hw, hw', hmatch⟩ := hf w w' base base' length a a'
      (flatFields_cons.mp hflat).1 (framedFields_cons.mp hframed).1 h.left hin.1 hfirst
    obtain ⟨readings, readings', hws, hws', hmatches⟩ := ih (w.moved a.length)
      (w'.moved a'.length) base base' length b b' (flatFields_cons.mp hflat).2
      (framedFields_cons.mp hframed).2 h.right hin.2 hothers
    refine ⟨reading :: readings, reading' :: readings', ?_, ?_, .cons hmatch hmatches⟩
    · rw [walkFields_cons, hw, hws, Window.moved_moved, List.length_append]
    · rw [walkFields_cons, hw', hws', Window.moved_moved, List.length_append]

structure Bytes.Encloses (bytes : Bytes) (offset limit : Nat) (wire : Bytes) : Prop where
  limit_le_length : limit ≤ bytes.length
  limit_le : limit ≤ Window.maxPosition
  fits : offset + wire.length ≤ limit
  slice_eq : bytes.slice offset wire.length = wire

theorem Bytes.Encloses.holds {bytes wire : Bytes} {offset limit : Nat}
    (h : bytes.Encloses offset limit wire) (version : UInt16) :
    (⟨bytes, limit, offset, version, h.limit_le⟩ : Window).Holds wire :=
  Window.read_eq_ok.mpr ⟨h.fits, h.slice_eq⟩

namespace Message

theorem extended_self {m : MessageDef} (hflat : flatFields m.fields)
    (hframed : framedFields m.fields) {version : UInt16} {length : Nat}
    (hinside : InBlockFields version length m.fields 0) {bytes : Bytes} {offset limit : Nat}
    (hspan : limit + spanFields m.fields < UInt64.size) {message : Message}
    {readings : List Reading} {w : Window}
    (hwrap : wrapForDecode bytes offset limit length version m = .ok message)
    (hwalk : message.body.walk message.window = (readings, w))
    (hcomplete : completeReadings readings) (hspacious : SpaciousFields version m.fields readings) :
    ∃ wire, bytes.Encloses offset limit wire ∧ w.position = offset + wire.length ∧
      BlockExtended version m.fields length 0 (ExtendedFields version m.fields) wire wire := by
  obtain ⟨hstop, hlimit, hmax, rfl⟩ := wrapForDecode_eq_ok hwrap
  have hsound : Window.Sound ⟨bytes, limit, offset, version, hmax⟩ :=
    ⟨Nat.le_trans (Nat.le_add_right _ _) hstop, hlimit⟩
  obtain ⟨block, rfl, hblock⟩ := Window.Holds.of_le hsound hstop
  obtain ⟨rest, hrest, rfl, hlaid⟩ := showsLayout.table m.fields offset
    (Window.moved ⟨bytes, limit, offset, version, hmax⟩ block.length) w readings hflat hframed
    (hsound.moved hstop) hspan hwalk hcomplete hspacious
  have hwire := hblock.append hrest
  refine ⟨block ++ rest, ⟨hlimit, hmax, hwire.le, (Window.read_eq_ok.mp hwire).2⟩, ?_, hinside,
    block, [], rest, rest, rfl, by rw [List.append_nil], rfl, rfl, hlaid⟩
  rw [List.length_append, ← Nat.add_assoc]
  rfl

end Message

namespace Market.Snapshot

def wire : Bytes :=
  List.replicate 28 0 ++ ([33, 0, 1] ++ List.replicate 33 0 ++ [2, 104, 105])

def longerWire : Bytes :=
  List.replicate 28 0 ++ [9] ++ ([35, 0, 1] ++ (List.replicate 33 0 ++ [8, 7]) ++ [2, 104, 105])

theorem extended_wire :
    BlockExtended 2 definition.fields 28 1 (ExtendedFields 2 definition.fields) wire
      longerWire := by
  have hblock : BlockExtended 2 Entries.group.fields 33 2 (ExtendedFields 2 Entries.group.fields)
      (List.replicate 33 0) (List.replicate 33 0 ++ [8, 7]) := by
    refine ⟨by decide, List.replicate 33 0, [8, 7], [], [], by decide, by decide, rfl, rfl, ?_⟩
    exact extendedFields_of_fixed Entries.group.fields [] (by decide) ⟨rfl, rfl⟩
  have hgroup : Fields.noMdEntries.Extended 2 ([33, 0, 1] ++ List.replicate 33 0)
      ([35, 0, 1] ++ (List.replicate 33 0 ++ [8, 7])) := by
    refine (Field.extended_group rfl).mpr ?_
    exact ⟨[33, 0, 1], [35, 0, 1], 2, [List.replicate 33 0], [List.replicate 33 0 ++ [8, 7]],
      ⟨rfl, rfl, rfl, rfl⟩, by decide, by decide, rfl, .cons hblock .nil⟩
  have hmemo : Fields.memo.Extended 2 [2, 104, 105] [2, 104, 105] :=
    (Field.extended_data rfl).mpr ⟨rfl, [2], [104, 105], rfl, rfl, rfl⟩
  refine ⟨by decide, List.replicate 28 0, [9], _, _, rfl, rfl, rfl, rfl, ?_⟩
  exact extendedFields_of_fixed [Fields.securityId, Fields.lastRptSeq, Fields.symbol,
    Fields.priceBand, Fields.securityExchange] [Fields.noMdEntries, Fields.memo] (by decide)
    ⟨_, _, _, _, rfl, rfl, hgroup, _, _, [], [], by decide, by decide, hmemo, rfl, rfl⟩

end Market.Snapshot

namespace Message

/-- A message that is read completely is read alike, to its end, where its blocks are extended. -/
theorem walk_extended {m : MessageDef} (hflat : flatFields m.fields)
    (hframed : framedFields m.fields) {version : UInt16} {length extra : Nat} {wire wire' : Bytes}
    (hextended : BlockExtended version m.fields length extra (ExtendedFields version m.fields) wire
      wire') {bytes bytes' : Bytes} {offset offset' limit limit' : Nat}
    (hwire : bytes.Encloses offset limit wire) (hwire' : bytes'.Encloses offset' limit' wire')
    {message : Message} {readings : List Reading} {w : Window}
    (hwrap : wrapForDecode bytes offset limit length version m = .ok message)
    (hwalk : message.body.walk message.window = (readings, w))
    (hcomplete : completeReadings readings) :
    w.position = offset + wire.length ∧ ∃ message' readings' w',
      wrapForDecode bytes' offset' limit' (length + extra) version m = .ok message' ∧
      message'.body.walk message'.window = (readings', w') ∧ completeReadings readings' ∧
      MatchingReadings readings readings' ∧ w'.position = offset' + wire'.length := by
  obtain ⟨hfit, hfit', seen, seen', hseen, hseen', hmatch⟩ :=
    transparent_block (transparent.table m.fields) hflat hframed hextended rfl rfl
      (hwire.holds version) (hwire'.holds version)
  rw [wrapForDecode_of_le hwire.limit_le_length hfit hwire.limit_le] at hwrap
  cases hwrap
  cases hseen.symm.trans hwalk
  exact ⟨rfl, _, seen', _,
    wrapForDecode_of_le hwire'.limit_le_length hfit' hwire'.limit_le version, hseen',
    hmatch.complete_eq.trans hcomplete, hmatch, rfl⟩

theorem walk_extended_snapshot :
    ∃ message readings w, wrapForDecode (7 :: Market.Snapshot.wire) 1 68 28 2
        Market.Snapshot.definition = .ok message ∧
      message.body.walk message.window = (readings, w) ∧ w.position = 68 ∧
      ∃ message' readings' w', wrapForDecode Market.Snapshot.longerWire 0 70 29 2
          Market.Snapshot.definition = .ok message' ∧
        message'.body.walk message'.window = (readings', w') ∧ completeReadings readings' ∧
        MatchingReadings readings readings' ∧ w'.position = 70 := by
  have hwire : Bytes.Encloses (7 :: Market.Snapshot.wire) 1 68 Market.Snapshot.wire :=
    ⟨by decide, by decide, by decide, by decide⟩
  have hwire' : Bytes.Encloses Market.Snapshot.longerWire 0 70 Market.Snapshot.longerWire :=
    ⟨by decide, by decide, by decide, by decide⟩
  have hwrap : wrapForDecode (7 :: Market.Snapshot.wire) 1 68 28 2 Market.Snapshot.definition = _ :=
    wrapForDecode_of_le (by decide) (by decide) (by decide) 2
  obtain ⟨hstop, message', readings', w', hread⟩ := walk_extended (by decide) (by decide)
    Market.Snapshot.extended_wire hwire hwire' hwrap Prod.mk.eta.symm (by decide +kernel)
  exact ⟨_, _, _, hwrap, Prod.mk.eta.symm, hstop, message', readings', w', hread⟩

end Message

namespace Note

def mark : Field :=
  (Field.required "mark" 1 0 (.type (.plain "Mark" .uint8 0))).optional

def definition : MessageDef :=
  ⟨"Note", 1, 0, [mark, Market.Snapshot.Fields.memo], Market.schema⟩

end Note

theorem Message.presence_behind_block :
    LaidOut Note.definition.fields 0 ∧ flatFields Note.definition.fields ∧
    framedFields Note.definition.fields ∧
    ExtendedFields 0 Note.definition.fields [2, 104, 105] [2, 104, 105] ∧
    (∃ m w, wrapForDecode [2, 104, 105] 0 3 0 0 Note.definition = .ok m ∧
      m.body.walk m.window = ([.type "mark" (.ok true) (.ok (.array ⟨.uint8, []⟩)),
        .data "memo" (.ok 2) (.ok [104, 105])], w) ∧ w.position = 3) ∧
    ∃ m w, wrapForDecode [255, 2, 104, 105] 0 4 1 0 Note.definition = .ok m ∧
      m.body.walk m.window = ([.type "mark" (.ok false) (.ok (.array ⟨.uint8, []⟩)),
        .data "memo" (.ok 2) (.ok [104, 105])], w) ∧ w.position = 4 := by
  refine ⟨by decide, by decide, by decide, ?_, ⟨_, _, rfl, rfl, rfl⟩, ⟨_, _, rfl, rfl, rfl⟩⟩
  apply extendedFields_of_fixed [Note.mark] [Market.Snapshot.Fields.memo] (by decide)
  exact ⟨[2, 104, 105], [2, 104, 105], [], [], rfl, rfl,
    (Field.extended_data rfl).mpr ⟨rfl, [2], [104, 105], rfl, rfl, rfl⟩, rfl, rfl⟩

end SimpleBinary
