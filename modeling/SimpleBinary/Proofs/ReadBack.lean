import SimpleBinary.Proofs.Filled

namespace SimpleBinary

theorem shownFields_cons {version : UInt16} {f : Field} {rest : List Field}
    {content : FieldContent} {contents : List FieldContent} {base : Nat} {w : Window}
    (h : showsFields version (f :: rest) (content :: contents)
      (walkFields base true (f :: rest) w).1) :
    f.shows version content (f.walk base true w).1 ∧
      showsFields version rest contents (walkFields base true rest (f.walk base true w).2).1 :=
  h

namespace Field

variable {f : Field} {version : UInt16} {base : Nat} {w : Window}

theorem value_of_shown {t : TypeDef} (hk : f.kind = .type t) {v : Value}
    (h : f.shows version (.value v) (f.walk base true w).1) :
    (f.bindAt base true w.version).value w = .ok v := by
  rw [walk_type hk] at h
  exact shows_value hk h

section

variable {t : TypeDef} {α : Type} [Element α] (hf : f.Numbers t α)
include hf

theorem Numbers.scalar_of_shown {value : α}
    (h : f.shows version (.value (.ofElement value)) (f.walk base true w).1) :
    (f.bindAt base true w.version).scalar α w = .ok value :=
  scalar_of_value (b := f.bindAt base true w.version) hf (value_of_shown hf.kind h)

theorem Numbers.scalar?_of_shown [DecidableEq α] (hp : f.presence = .optional)
    (hs : f.since ≤ w.version) (hw : w.limit ≤ w.bytes.length) {value? : Option α}
    (h : f.shows version (.value (.ofElement (value?.getD (Element.ofScalar t.null))))
      (f.walk base true w).1) :
    (f.bindAt base true w.version).scalar? α w =
      .ok (value?.filter (· ≠ Element.ofScalar t.null)) :=
  scalar?_of_value (b := f.bindAt base true w.version) hf hp (visible_bindAt hs base) hs hw
    (value_of_shown hf.kind h)

end

end Field

namespace Market

namespace EmptyBook

def read (m : Message) : Except Error Content := do
  return {
    securityId := ← securityId m
    matchEventIndicator := ← matchEventIndicator m
    tradeDate := ← tradeDate m
    rptSeq := ← rptSeq m }

def Content.represented (content : Content) : Content where
  securityId := content.securityId
  matchEventIndicator := ⟨.ofBits content.matchEventIndicator.set.bits .uint8⟩
  tradeDate := content.tradeDate.filter (· ≠ 65535)
  rptSeq := content.rptSeq.filter (· ≠ 0)

theorem read_of_shown {m : Message} (hs : 2 ≤ m.version)
    (hw : m.window.limit ≤ m.window.bytes.length) {content : Content}
    (h : showsFields m.version definition.fields content.stored
      (walkFields m.offset true definition.fields m.window).1) :
    read m = .ok content.represented := by
  obtain ⟨hsecurityId, h⟩ := shownFields_cons h
  obtain ⟨hflags, h⟩ := shownFields_cons h
  obtain ⟨htradeDate, h⟩ := shownFields_cons h
  obtain ⟨hrptSeq, -⟩ := shownFields_cons h
  have hold : Fields.tradeDate.since ≤ m.version := UInt16.zero_le
  have hsecurityId : securityId m = .ok content.securityId :=
    Fields.securityId_numbers.scalar_of_shown hsecurityId
  have hflags : matchEventIndicator m = .ok content.represented.matchEventIndicator := by
    have hbits := Field.shows_bits (s := Market.matchEventIndicator) rfl hflags
    exact congrArg (Except.map EventFlags.mk) hbits
  have htradeDate : tradeDate m = .ok content.represented.tradeDate :=
    Fields.tradeDate_numbers.scalar?_of_shown rfl hold hw htradeDate
  have hrptSeq : rptSeq m = .ok content.represented.rptSeq :=
    Fields.rptSeq_numbers.scalar?_of_shown rfl hs hw hrptSeq
  simp only [read, hsecurityId, hflags, htradeDate, hrptSeq]
  rfl

end EmptyBook

namespace Entries

def read (it : Iteration) : Except Error Content := do
  return {
    mantissa := ← Price.mantissa (← mdEntryPx it) it.window
    mdEntrySize := ← mdEntrySize it
    orderId := ← orderId it
    mdEntryType := ← mdEntryType it
    enteringFirm := ← enteringFirm it
    mdEntryPositionNo := ← mdEntryPositionNo it }

def readAll : Nat → Action Iteration (List Content)
  | 0 => return []
  | n + 1 => do
    discard Iteration.next
    let content ← read (← get)
    return content :: (← readAll n)

def Content.represented (content : Content) : Content where
  mantissa := content.mantissa.filter (· ≠ Int64.minValue)
  mdEntrySize := content.mdEntrySize
  orderId := content.orderId.filter (· ≠ 18446744073709551615)
  mdEntryType := .ofRaw content.mdEntryType.raw
  enteringFirm := content.enteringFirm.filter (· ≠ 4294967295)
  mdEntryPositionNo := content.mdEntryPositionNo.filter (· ≠ 4294967295)

section

variable {g : GroupView} {base : Nat} {w : Window} (hg : g.current = some base)
include hg

theorem bind_eq (f : Field) : Iteration.bind ⟨g, w⟩ f = .ok (f.bindAt base true w.version) := by
  rw [Iteration.bind, GroupView.element, hg]
  rfl

theorem mantissa_of_shown {version : UInt16} (hw : w.limit ≤ w.bytes.length)
    {value? : Option Int64}
    (h : Fields.mdEntryPx.shows version
      (.members [.value (.ofElement (value?.getD Int64.minValue)), .none])
      (Fields.mdEntryPx.walk base true w).1) :
    (do Price.mantissa (← mdEntryPx ⟨g, w⟩) w : Except Error (Option Int64)) =
      .ok (value?.filter (· ≠ Int64.minValue)) := by
  have hv : Fields.mdEntryPx.inVersion w.version = true := decide_eq_true UInt16.zero_le
  rw [Field.walk_composite (c := Composites.priceOptional) rfl] at h
  have h := Field.shows_members (c := Composites.priceOptional) rfl h
  rw [hv] at h
  obtain ⟨hmantissa, -⟩ := shownFields_cons h
  have hprice : mdEntryPx ⟨g, w⟩ =
      .ok ⟨Fields.mdEntryPx.bindAt base true w.version, Composites.priceOptional⟩ := by
    rw [mdEntryPx, bind_eq hg]
    rfl
  have hread : Price.mantissa
      ⟨Fields.mdEntryPx.bindAt base true w.version, Composites.priceOptional⟩ w =
        (Composites.mantissa.bindAt (wordOf base) (Fields.mdEntryPx.inVersion w.version)
          w.version).scalar? Int64 w := rfl
  rw [hprice, Action.ok_bind, hread, hv]
  exact Composites.mantissa_numbers.scalar?_of_shown rfl UInt16.zero_le hw hmantissa

theorem read_of_shown {version : UInt16} (hs : 2 ≤ w.version) (hw : w.limit ≤ w.bytes.length)
    {content : Content}
    (h : showsFields version group.fields content.stored (walkFields base true group.fields w).1) :
    read ⟨g, w⟩ = .ok content.represented := by
  have hold : 0 ≤ w.version := UInt16.zero_le
  obtain ⟨hprice, h⟩ := shownFields_cons h
  have hmantissa := mantissa_of_shown hg hw hprice
  obtain ⟨hsize, h⟩ := shownFields_cons h
  obtain ⟨horderId, h⟩ := shownFields_cons h
  obtain ⟨htype, h⟩ := shownFields_cons h
  obtain ⟨hfirm, h⟩ := shownFields_cons h
  obtain ⟨hposition, -⟩ := shownFields_cons h
  have hsize : mdEntrySize ⟨g, w⟩ = .ok content.mdEntrySize := by
    rw [mdEntrySize, bind_eq hg]
    exact Fields.mdEntrySize_numbers.scalar_of_shown hsize
  have horderId : orderId ⟨g, w⟩ = .ok content.represented.orderId := by
    rw [orderId, bind_eq hg]
    exact Fields.orderId_numbers.scalar?_of_shown rfl hold hw horderId
  have htype : mdEntryType ⟨g, w⟩ = .ok content.represented.mdEntryType := by
    have hraw := Field.shows_raw (e := Market.mdEntryType) rfl htype
    rw [mdEntryType, bind_eq hg]
    exact congrArg (Except.map MdEntryType.ofRaw) hraw
  have hfirm : enteringFirm ⟨g, w⟩ = .ok content.represented.enteringFirm := by
    rw [enteringFirm, bind_eq hg]
    exact Fields.enteringFirm_numbers.scalar?_of_shown rfl hold hw hfirm
  have hposition : mdEntryPositionNo ⟨g, w⟩ = .ok content.represented.mdEntryPositionNo := by
    rw [mdEntryPositionNo, bind_eq hg]
    exact Fields.mdEntryPositionNo_numbers.scalar?_of_shown rfl hs hw hposition
  have hread : read ⟨g, w⟩ = do
      let mantissa ← (do Price.mantissa (← mdEntryPx ⟨g, w⟩) w : Except Error (Option Int64))
      return ⟨mantissa, ← mdEntrySize ⟨g, w⟩, ← orderId ⟨g, w⟩, ← mdEntryType ⟨g, w⟩,
        ← enteringFirm ⟨g, w⟩, ← mdEntryPositionNo ⟨g, w⟩⟩ := by
    rw [read, bind_assoc]
  rw [hread, hmantissa, hsize, horderId, htype, hfirm, hposition]
  rfl

end

theorem walk_window (base : Nat) (w : Window) : (walkFields base true group.fields w).2 = w := by
  have hfixed : ∀ f ∈ group.fields, f.isFixed := by decide
  have hflat : flatFields group.fields := by decide
  exact walk_window_of_fixed.table group.fields hfixed hflat base true w

theorem readAll_of_shown (contents : List Content) (it : Iteration)
    (hs : 2 ≤ it.window.version) (hw : it.window.limit ≤ it.window.bytes.length)
    {version : UInt16}
    (h : group.ShowsElements version (contents.map Content.stored)
      (Walk.elements (fun base => walkFields base true group.fields)
        (contents.map Content.stored).length it).1) :
    readAll contents.length it = (.ok (contents.map Content.represented),
      (Walk.elements (fun base => walkFields base true group.fields)
        (contents.map Content.stored).length it).2) := by
  induction contents generalizing it with
  | nil => rfl
  | cons content rest ih =>
    rw [List.map_cons, List.length_cons] at h ⊢
    obtain ⟨base, it', hnext, hfields, hothers, hafter⟩ := h.visited
    have hframe := (Iteration.keeps_window_next Window.keeps_advance).after hnext
    have hs' : 2 ≤ it'.window.version := by
      rw [Window.version_of_frame hframe]
      exact hs
    have hw' := Window.limit_of_frame hframe hw
    have hcurrent : it'.group.current = some base := by
      obtain ⟨-, rfl⟩ := Iteration.next_eq_ok hnext
      rfl
    have hread : read it' = .ok content.represented := read_of_shown hcurrent hs' hw' hfields
    rw [walk_window] at hothers hafter
    simp only [readAll, List.length_cons, Action.bind_apply, Action.discard_apply, hnext,
      Except.map, Action.get_apply, Action.lift_apply, hread, ih it' hs' hw' hothers, hafter,
      Action.pure_apply, List.map_cons]

end Entries

namespace Snapshot

def read : Action Message Content := do
  let m ← get
  let (lowLimit, highLimit) ← priceBand m
  let view ← noMdEntries
  let entries ← Message.iterate view (Entries.readAll view.count)
  return {
    securityId := ← securityId m
    lastRptSeq := ← lastRptSeq m
    symbol := ← symbol m
    lowLimit
    highLimit
    entries
    memo := ← Fields.memo.string (← memo) }

def Content.represented (content : Content) : Content where
  securityId := content.securityId
  lastRptSeq := content.lastRptSeq.filter (· ≠ 0)
  symbol := String.ofList (content.symbol.toList.takeWhile (· ≠ '\x00'))
  lowLimit := content.lowLimit
  highLimit := content.highLimit
  entries := content.entries.map Entries.Content.represented
  memo := content.memo

variable {m : Message}

theorem symbol_of_shown {text : String}
    (h : Fields.symbol.shows m.version (.value (.text (utf8 text)))
      (Fields.symbol.walk m.offset true m.window).1) :
    symbol m = .ok text := by
  have hvalue := Field.value_of_shown (t := Types.symbol) rfl h
  have htext : (m.bind Fields.symbol).value m.window =
      ((m.bind Fields.symbol).text m.window).map Value.text :=
    Binding.value_eq_text (t := Types.symbol) rfl (by decide) (by rintro s ⟨⟩)
  have hbound : (m.bind Fields.symbol).value m.window = .ok (.text (utf8 text)) := hvalue
  rw [htext] at hbound
  cases hread : (m.bind Fields.symbol).text m.window with
  | error e =>
    rw [hread] at hbound
    cases hbound
  | ok characters =>
    rw [hread] at hbound
    cases hbound
    rw [symbol, Binding.textString, hread, Action.ok_bind, Utf8.decode?_utf8]
    rfl

theorem priceBand_of_shown {low high : Int32} (hw : m.window.limit ≤ m.window.bytes.length)
    (h : Fields.priceBand.shows m.version (.value (.array ⟨.int32, elementBytes [low, high]⟩))
      (Fields.priceBand.walk m.offset true m.window).1) :
    priceBand m = .ok (low, high) := by
  have hvalue : (m.bind Fields.priceBand).value m.window =
      .ok (.array ⟨.int32, elementBytes [low, high]⟩) :=
    Field.value_of_shown (t := Types.priceBand) rfl h
  obtain ⟨hok, hband⟩ := priceBand_value hw
  rw [hvalue] at hok
  cases hread : priceBand m with
  | error e =>
    rw [hread] at hok
    cases hok
  | ok band =>
    have hsame := hvalue.symm.trans (hband band.1 band.2 hread)
    injection hsame with hsame
    injection hsame with hsame
    injection hsame with _ hsame
    have hvalues := congrArg (elements Int32) hsame
    rw [elements_elementBytes (by decide), elements_elementBytes (by decide)] at hvalues
    cases hvalues
    rfl

theorem entries_of_shown (hs : 2 ≤ m.version) (hw : m.window.limit ≤ m.window.bytes.length)
    {contents : List Entries.Content}
    (h : Fields.noMdEntries.shows m.version (.elements (contents.map Entries.Content.stored))
      (Fields.noMdEntries.walk m.offset true m.window).1) :
    (noMdEntries >>= fun view => Message.iterate view (Entries.readAll view.count)) m =
      (.ok (contents.map Entries.Content.represented),
        m.withWindow (Fields.noMdEntries.walk m.offset true m.window).2) := by
  have hk : Fields.noMdEntries.kind = .group Entries.group := rfl
  obtain ⟨view, w, hbind, hframe, hcount, -, helements, hafter⟩ := Field.bound_of_shown hk h
  have hnamed : noMdEntries m =
      ((GroupView.bind Fields.noMdEntries Entries.group
        (true && Fields.noMdEntries.inVersion m.version) m.window).1,
      m.withWindow (GroupView.bind Fields.noMdEntries Entries.group
        (true && Fields.noMdEntries.inVersion m.version) m.window).2) := rfl
  have hbound : noMdEntries m = (.ok view, m.withWindow w) := by
    rw [hnamed, Message.version, hbind]
  have hs' : 2 ≤ w.version := by
    rw [Window.version_of_frame hframe]
    exact hs
  have hentries := Entries.readAll_of_shown contents ⟨view, w⟩ hs'
    (Window.limit_of_frame hframe hw) helements
  rw [Action.bind_of_ok hbound, hcount, List.length_map, Message.performs_iterate m view _ w,
    Iteration.run, hentries, hafter]

theorem memo_of_shown {text : String}
    (h : Fields.memo.shows m.version (.payload (utf8 text))
      (Fields.memo.walk m.offset true m.window).1) :
    memo m = (.ok (utf8 text), m.withWindow (Fields.memo.walk m.offset true m.window).2) := by
  have hk : Fields.memo.kind = .data memoData := rfl
  rw [Field.walk_data hk] at h ⊢
  exact congrArg (·, m.withWindow _) (Field.shows_payload hk h).2

theorem read_of_shown (hs : 2 ≤ m.version) (hw : m.window.limit ≤ m.window.bytes.length)
    {content : Content}
    (h : showsFields m.version definition.fields content.seen
      (walkFields m.offset true definition.fields m.window).1) :
    (read m).1 = .ok content.represented := by
  obtain ⟨hsecurityId, h⟩ := shownFields_cons h
  obtain ⟨hlastRptSeq, h⟩ := shownFields_cons h
  obtain ⟨hsymbol, h⟩ := shownFields_cons h
  obtain ⟨hband, h⟩ := shownFields_cons h
  obtain ⟨-, h⟩ := shownFields_cons h
  obtain ⟨hentries, h⟩ := shownFields_cons h
  obtain ⟨hmemo, -⟩ := shownFields_cons h
  have hold : Fields.lastRptSeq.since ≤ m.version := UInt16.zero_le
  have hsecurityId : securityId m = .ok content.securityId :=
    Fields.securityId_numbers.scalar_of_shown hsecurityId
  have hlastRptSeq : lastRptSeq m = .ok content.represented.lastRptSeq :=
    Fields.lastRptSeq_numbers.scalar?_of_shown rfl hold hw hlastRptSeq
  rw [Utf8.untilZero_utf8] at hsymbol
  have hsymbol : symbol m = .ok content.represented.symbol := symbol_of_shown hsymbol
  have hband := priceBand_of_shown hw hband
  have hentries := entries_of_shown hs hw hentries
  set w := (Fields.noMdEntries.walk m.offset true m.window).2
  have hmemo : memo (m.withWindow w) = (.ok (utf8 content.memo), _) :=
    memo_of_shown (m := m.withWindow w) hmemo
  have hstring : Fields.memo.string (utf8 content.memo) = .ok content.memo := by
    rw [Field.string, Utf8.decode?_utf8]
  rw [Action.bind_apply] at hentries
  cases hgroup : noMdEntries m with
  | mk result m' =>
    cases result with
    | error e =>
      rw [hgroup] at hentries
      cases hentries
    | ok view =>
      rw [hgroup] at hentries
      dsimp only at hentries
      simp only [read, Action.bind_apply, Action.get_apply, Action.lift_apply, hband, hgroup,
        hentries, hsecurityId, hlastRptSeq, hsymbol, hmemo, hstring, Action.pure_apply]
      rfl

end Snapshot

end Market

end SimpleBinary
