import SimpleBinary.Market.EmptyBook
import SimpleBinary.Market.Snapshot
import SimpleBinary.Proofs.Named
import SimpleBinary.Proofs.RoundTrip

namespace SimpleBinary

theorem Message.onField_eq {m : Message} {f : Field} {α : Type}
    {action : Binding → Action Window α} {use : Action Window α}
    (h : use m.window = (liftM (Except.ok (m.bind f) : Except Error Binding) >>= action) m.window) :
    Message.onField f action m = Message.onWindow use m := by
  have hsame : use m.window = action (m.bind f) m.window := h
  simp only [Message.onField, Message.onWindow, Action.bind_apply, Action.get_apply,
    Action.onPart_apply, hsame]

theorem Iteration.onField_eq {it : Iteration} {f : Field} {α : Type}
    {action : Binding → Action Window α} {use : Action Window α}
    (h : use it.window = (liftM (it.bind f) >>= action) it.window) :
    Iteration.onField f action it = Iteration.onWindow use it := by
  simp only [Iteration.onField, Iteration.onWindow, Action.bind_apply, Action.get_apply,
    Action.onPart_apply, Action.lift_apply, h]
  cases it.bind f <;> rfl

def Field.string (f : Field) (characters : Bytes) : Except Error String :=
  match Utf8.decode? characters with
  | some string => .ok string
  | none => .error (.invalidText f.name)

namespace Market

structure EmptyBook.Accessors (m : Message) : Prop where
  securityId : (m.body.entryNamed "securityID" >>= Entry.value) m.window =
    ((EmptyBook.securityId m).map Value.ofElement, m.window)
  matchEventIndicator : (m.body.entryNamed "matchEventIndicator" >>= Entry.bits) m.window =
    ((EmptyBook.matchEventIndicator m).map EventFlags.set, m.window)
  tradeDate : (m.body.entryNamed "tradeDate" >>= Entry.value?) m.window =
    ((EmptyBook.tradeDate m).map (Option.map Value.ofElement), m.window)
  rptSeq : (m.body.entryNamed "rptSeq" >>= Entry.value?) m.window =
    ((EmptyBook.rptSeq m).map (Option.map Value.ofElement), m.window)
  setSecurityId (v : UInt64) : EmptyBook.setSecurityId v m =
    Message.onWindow (m.body.entryNamed "securityID" >>= Entry.setValue (.ofElement v)) m
  setMatchEventIndicator (flags : EventFlags) : EmptyBook.setMatchEventIndicator flags m =
    Message.onWindow (m.body.entryNamed "matchEventIndicator" >>= Entry.setBits flags.set) m
  setTradeDate (v? : Option UInt16) : EmptyBook.setTradeDate v? m =
    Message.onWindow (m.body.entryNamed "tradeDate" >>= Entry.setValue? (v?.map .ofElement)) m
  setRptSeq (v? : Option UInt32) : EmptyBook.setRptSeq v? m =
    Message.onWindow (m.body.entryNamed "rptSeq" >>= Entry.setValue? (v?.map .ofElement)) m

structure Snapshot.Accessors (m : Message) : Prop where
  securityId : (m.body.entryNamed "securityID" >>= Entry.value) m.window =
    ((Snapshot.securityId m).map Value.ofElement, m.window)
  lastRptSeq : (m.body.entryNamed "lastRptSeq" >>= Entry.value?) m.window =
    ((Snapshot.lastRptSeq m).map (Option.map Value.ofElement), m.window)
  symbol : ∃ characters : Except Error Bytes,
    (m.body.entryNamed "symbol" >>= Entry.value) m.window =
      (characters.map Value.text, m.window) ∧
    Snapshot.symbol m = characters >>= Fields.symbol.string
  priceBand : ∃ band : Except Error Value,
    (m.body.entryNamed "priceBand" >>= Entry.value) m.window = (band, m.window) ∧
    band.isOk = (Snapshot.priceBand m).isOk ∧
    ∀ low high, Snapshot.priceBand m = .ok (low, high) →
      band = .ok (.array ⟨.int32, elementBytes [low, high]⟩)
  securityExchange : ∃ characters : Except Error Bytes,
    (m.body.entryNamed "securityExchange" >>= Entry.value) m.window =
      (characters.map Value.text, m.window) ∧
    Snapshot.securityExchange m = characters >>= Fields.securityExchange.string
  noMdEntries : Snapshot.noMdEntries m =
    Message.onWindow (m.body.entryNamed "noMDEntries" >>= Entry.elements) m
  entries : ∀ view m', Snapshot.noMdEntries m = (.ok view, m') → view.definition = Entries.group
  memo : Snapshot.memo m = Message.onWindow (m.body.entryNamed "memo" >>= Entry.payload) m
  setSecurityId (v : UInt64) : Snapshot.setSecurityId v m =
    Message.onWindow (m.body.entryNamed "securityID" >>= Entry.setValue (.ofElement v)) m
  setLastRptSeq (v? : Option UInt32) : Snapshot.setLastRptSeq v? m =
    Message.onWindow (m.body.entryNamed "lastRptSeq" >>= Entry.setValue? (v?.map .ofElement)) m
  setSymbol (v : String) : Snapshot.setSymbol v m =
    Message.onWindow (m.body.entryNamed "symbol" >>= Entry.setValue (.text (utf8 v))) m
  setPriceBand (low high : Int32) : Snapshot.setPriceBand low high m =
    Message.onWindow (m.body.entryNamed "priceBand" >>=
      Entry.setValue (.array ⟨.int32, elementBytes [low, high]⟩)) m
  noMdEntriesCount (count : Nat) : Snapshot.noMdEntriesCount count m =
    Message.onWindow (m.body.entryNamed "noMDEntries" >>= Entry.resetCount count) m
  setMemo (v : String) : Snapshot.setMemo v m =
    Message.onWindow (m.body.entryNamed "memo" >>= Entry.setPayload (utf8 v)) m

structure Entries.Accessors (it : Iteration) : Prop where
  mdEntryPx : (it.group.entryNamed "mDEntryPx" >>= Entry.view) it.window =
    (Entries.mdEntryPx it, it.window)
  price : ∀ price, Entries.mdEntryPx it = .ok price → price.definition = Composites.priceOptional
  mdEntrySize : (it.group.entryNamed "mDEntrySize" >>= Entry.value) it.window =
    ((Entries.mdEntrySize it).map Value.ofElement, it.window)
  orderId : (it.group.entryNamed "orderID" >>= Entry.value?) it.window =
    ((Entries.orderId it).map (Option.map Value.ofElement), it.window)
  mdEntryType : ∃ raw : Except Error UInt64,
    (it.group.entryNamed "mDEntryType" >>= Entry.raw) it.window = (raw, it.window) ∧
    Entries.mdEntryType it = raw.map MdEntryType.ofRaw
  enteringFirm : (it.group.entryNamed "enteringFirm" >>= Entry.value?) it.window =
    ((Entries.enteringFirm it).map (Option.map Value.ofElement), it.window)
  mdEntryPositionNo : (it.group.entryNamed "mDEntryPositionNo" >>= Entry.value?) it.window =
    ((Entries.mdEntryPositionNo it).map (Option.map Value.ofElement), it.window)
  setMdEntrySize (v : Int64) : Entries.setMdEntrySize v it =
    Iteration.onWindow (it.group.entryNamed "mDEntrySize" >>= Entry.setValue (.ofElement v)) it
  setOrderId (v? : Option UInt64) : Entries.setOrderId v? it =
    Iteration.onWindow
      (it.group.entryNamed "orderID" >>= Entry.setValue? (v?.map .ofElement)) it
  setMdEntryType (v : MdEntryType) : Entries.setMdEntryType v it =
    Iteration.onWindow (it.group.entryNamed "mDEntryType" >>= Entry.setRaw v.raw) it
  setEnteringFirm (v? : Option UInt32) : Entries.setEnteringFirm v? it =
    Iteration.onWindow
      (it.group.entryNamed "enteringFirm" >>= Entry.setValue? (v?.map .ofElement)) it
  setMdEntryPositionNo (v? : Option UInt32) : Entries.setMdEntryPositionNo v? it =
    Iteration.onWindow
      (it.group.entryNamed "mDEntryPositionNo" >>= Entry.setValue? (v?.map .ofElement)) it

structure Price.Accessors (price : CompositeView) (w : Window) : Prop where
  mantissa : (price.members.entryNamed "mantissa" >>= Entry.value?) w =
    ((Price.mantissa price w).map (Option.map Value.ofElement), w)
  exponent : (price.members.entryNamed "exponent" >>= Entry.value) w =
    ((Price.exponent price w).map Value.ofElement, w)
  setMantissa (v? : Option Int64) : Price.setMantissa price v? w =
    (price.members.entryNamed "mantissa" >>= Entry.setValue? (v?.map .ofElement)) w

namespace EmptyBook.Fields

theorem securityId_numbers : securityId.Numbers Types.securityId UInt64 where
  kind := rfl
  single := rfl
  element := (inferInstance : ElementOf UInt64 .uint64)
  whole := rfl
  null := rfl
  stored := by decide

theorem tradeDate_numbers : tradeDate.Numbers Types.localMktDate UInt16 where
  kind := rfl
  single := rfl
  element := (inferInstance : ElementOf UInt16 .uint16)
  whole := rfl
  null := rfl
  stored := by decide

theorem rptSeq_numbers : rptSeq.Numbers Types.seqNum UInt32 where
  kind := rfl
  single := rfl
  element := (inferInstance : ElementOf UInt32 .uint32)
  whole := rfl
  null := rfl
  stored := by decide

end EmptyBook.Fields

namespace Snapshot.Fields

theorem securityId_numbers : securityId.Numbers Types.securityId UInt64 where
  kind := rfl
  single := rfl
  element := (inferInstance : ElementOf UInt64 .uint64)
  whole := rfl
  null := rfl
  stored := by decide

theorem lastRptSeq_numbers : lastRptSeq.Numbers Types.seqNum UInt32 where
  kind := rfl
  single := rfl
  element := (inferInstance : ElementOf UInt32 .uint32)
  whole := rfl
  null := rfl
  stored := by decide

end Snapshot.Fields

namespace Entries.Fields

theorem mdEntrySize_numbers : mdEntrySize.Numbers Types.quantity Int64 where
  kind := rfl
  single := rfl
  element := (inferInstance : ElementOf Int64 .int64)
  whole := rfl
  null := rfl
  stored := by decide

theorem orderId_numbers : orderId.Numbers Types.orderId UInt64 where
  kind := rfl
  single := rfl
  element := (inferInstance : ElementOf UInt64 .uint64)
  whole := rfl
  null := rfl
  stored := by decide

theorem enteringFirm_numbers : enteringFirm.Numbers Types.firm UInt32 where
  kind := rfl
  single := rfl
  element := (inferInstance : ElementOf UInt32 .uint32)
  whole := rfl
  null := rfl
  stored := by decide

theorem mdEntryPositionNo_numbers : mdEntryPositionNo.Numbers Types.uint32 UInt32 where
  kind := rfl
  single := rfl
  element := (inferInstance : ElementOf UInt32 .uint32)
  whole := rfl
  null := rfl
  stored := by decide

end Entries.Fields

theorem Composites.mantissa_numbers : Composites.mantissa.Numbers Types.mantissa Int64 where
  kind := rfl
  single := rfl
  element := (inferInstance : ElementOf Int64 .int64)
  whole := rfl
  null := rfl
  stored := by decide

theorem EmptyBook.accessors {m : Message} (hm : m.definition = definition) : Accessors m := by
  have hnamed {f : Field} (name : String) (h : Field.named? definition.fields name = some f) :
      Reaches (m.body.entryNamed name) m.window (.ok (m.bind f)) f :=
    Message.reaches (by rw [hm]; exact h)
  have hsecurityId := hnamed "securityID" rfl
  have hflags := hnamed "matchEventIndicator" rfl
  have htradeDate := hnamed "tradeDate" rfl
  have hrptSeq := hnamed "rptSeq" rfl
  exact {
    securityId := hsecurityId.value Fields.securityId_numbers
    matchEventIndicator := by
      have hread := hflags.bits rfl
      rw [hread, matchEventIndicator]
      change ((m.bind Fields.matchEventIndicator).bits m.window, m.window) = _
      cases (m.bind Fields.matchEventIndicator).bits m.window <;> rfl
    tradeDate := htradeDate.value? Fields.tradeDate_numbers
    rptSeq := hrptSeq.value? Fields.rptSeq_numbers
    setSecurityId := fun v => Message.onField_eq (hsecurityId.setValue Fields.securityId_numbers v)
    setMatchEventIndicator := fun flags => Message.onField_eq (hflags.setBits rfl flags.set)
    setTradeDate := fun v? => Message.onField_eq (htradeDate.setValue? Fields.tradeDate_numbers v?)
    setRptSeq := fun v? => Message.onField_eq (hrptSeq.setValue? Fields.rptSeq_numbers v?) }

theorem Entries.definition_mdEntryPx {it : Iteration} (price : CompositeView)
    (h : mdEntryPx it = .ok price) : price.definition = Composites.priceOptional := by
  obtain ⟨b, hb, hview⟩ := Action.except_bind_eq_ok h
  have hfield : b.field = Fields.mdEntryPx := by
    unfold Iteration.bind at hb
    cases helement : it.group.element with
    | error e =>
      rw [helement] at hb
      cases hb
    | ok element =>
      rw [helement] at hb
      cases hb
      rfl
  rw [CompositeView.ofBinding, hfield] at hview
  cases hview
  rfl

theorem Entries.accessors {it : Iteration} (hg : it.group.definition = group) :
    Accessors it := by
  have hnamed {f : Field} (name : String) (h : Field.named? group.fields name = some f) :
      Reaches (it.group.entryNamed name) it.window (it.bind f) f :=
    Iteration.reaches (by rw [hg]; exact h)
  have hprice := hnamed "mDEntryPx" rfl
  have hsize := hnamed "mDEntrySize" rfl
  have horderId := hnamed "orderID" rfl
  have htype := hnamed "mDEntryType" rfl
  have hfirm := hnamed "enteringFirm" rfl
  have hposition := hnamed "mDEntryPositionNo" rfl
  exact {
    mdEntryPx := hprice.view rfl
    price := definition_mdEntryPx
    mdEntrySize := hsize.value Fields.mdEntrySize_numbers
    orderId := horderId.value? Fields.orderId_numbers
    mdEntryType := ⟨_, htype.raw rfl, by
      unfold mdEntryType
      cases it.bind Fields.mdEntryType <;> rfl⟩
    enteringFirm := hfirm.value? Fields.enteringFirm_numbers
    mdEntryPositionNo := hposition.value? Fields.mdEntryPositionNo_numbers
    setMdEntrySize := fun v => Iteration.onField_eq (hsize.setValue Fields.mdEntrySize_numbers v)
    setOrderId := fun v? => Iteration.onField_eq (horderId.setValue? Fields.orderId_numbers v?)
    setMdEntryType := fun v => Iteration.onField_eq (htype.setRaw rfl v.raw)
    setEnteringFirm := fun v? =>
      Iteration.onField_eq (hfirm.setValue? Fields.enteringFirm_numbers v?)
    setMdEntryPositionNo := fun v? =>
      Iteration.onField_eq (hposition.setValue? Fields.mdEntryPositionNo_numbers v?) }

theorem Price.accessors {price : CompositeView}
    (hp : price.definition = Composites.priceOptional) (w : Window) : Accessors price w := by
  have hnamed {f : Field} (name : String)
      (h : Field.named? Composites.priceOptional.fields name = some f) :
      Reaches (price.members.entryNamed name) w (.ok (price.members.bind w.version f)) f :=
    Block.reaches (by rw [CompositeView.members, hp]; exact h) w
  have hmantissa := hnamed "mantissa" rfl
  have hexponent := hnamed "exponent" rfl
  exact {
    mantissa := hmantissa.value? Composites.mantissa_numbers
    exponent := by
      have : ElementOf Int8 Types.exponent.primitive :=
        (inferInstance : ElementOf Int8 .int8)
      apply hexponent.value_of rfl
      intro b hb
      exact Binding.value_eq_scalar_of_constant (t := Types.exponent) (s := .int (-4))
        (by rw [hb]; rfl) rfl (by rw [hb]; rfl) (by rw [hb]; rfl) rfl
    setMantissa := fun v? => (hmantissa.setValue? Composites.mantissa_numbers v?).symm }

theorem Snapshot.noMdEntriesCount_eq (count : Nat) (m : Message) :
    noMdEntriesCount count m = Message.onField Fields.noMdEntries (fun b => do
      let view ← GroupView.ofBinding b
      Iteration.run view do
        Iteration.resetCount count
        return (← get).group) m := by
  simp only [noMdEntriesCount, noMdEntries, Message.onField, Message.iterate, Message.onWindow,
    Action.bind_apply, Action.get_apply, Action.onPart_apply]
  rcases GroupView.ofBinding (m.bind Fields.noMdEntries) m.window with ⟨e | view, w⟩
  · rfl
  · rfl

theorem Snapshot.definition_noMdEntries {m m' : Message} {view : GroupView}
    (h : noMdEntries m = (.ok view, m')) : view.definition = Entries.group := by
  obtain ⟨hbind, -⟩ := Prod.mk.inj h
  exact GroupView.definition_of_bind (Prod.ext hbind rfl)

theorem Snapshot.priceBand_value {m : Message} (hw : m.window.limit ≤ m.window.bytes.length) :
    ((m.bind Fields.priceBand).value m.window).isOk = (priceBand m).isOk ∧
      ∀ low high, priceBand m = .ok (low, high) →
        (m.bind Fields.priceBand).value m.window =
          .ok (.array ⟨.int32, elementBytes [low, high]⟩) := by
  have : ElementOf Int32 Types.priceBand.primitive :=
    (inferInstance : ElementOf Int32 .int32)
  have hstored : Fields.priceBand.presence ≠ .constant := by decide
  have hversion : Fields.priceBand.inVersion m.version = true := decide_eq_true UInt16.zero_le
  have hboth : priceBand m = do
      let low ← (m.bind Fields.priceBand).arrayElement Int32 0 m.window
      let high ← (m.bind Fields.priceBand).arrayElement Int32 1 m.window
      return (low, high) := rfl
  rw [hboth]
  generalize hband : m.bind Fields.priceBand = band
  have hk : band.field.kind = .type Types.priceBand := by rw [← hband]; rfl
  have hs : band.Stores := by
    rw [← hband]
    exact ⟨hversion, hstored⟩
  have hoffset : wordOf band.offset = band.offset := by
    rw [← hband]
    exact wordOf_of_lt (wordOf_lt _)
  rw [Binding.value_eq_array (α := Int32) hk hs (fun _ => ElementOf.encode_decode rfl) (by decide)
    rfl hw]
  have harray := Binding.array_of_visible (w := m.window) (α := Int32) hk hs
  by_cases hle : band.offset + Types.priceBand.encodedLength ≤ m.window.limit
  · rw [Window.read_of_le hle] at harray
    have hlength : (elements Int32 (m.window.bytes.slice band.offset
        Types.priceBand.encodedLength)).length = 2 := by
      rw [elements, List.length_map, Bytes.length_pieces,
        Bytes.length_slice (Nat.le_trans hle hw)]
      rfl
    obtain ⟨low, high, hvalues⟩ := List.length_eq_two.mp hlength
    rw [Except.map, hvalues] at harray
    have hlow : band.arrayElement Int32 0 m.window = .ok low :=
      Binding.arrayElement_of_array hk hs hw harray rfl
    have hhigh : band.arrayElement Int32 1 m.window = .ok high :=
      Binding.arrayElement_of_array hk hs hw harray rfl
    rw [harray, hlow, hhigh]
    refine ⟨rfl, ?_⟩
    rintro _ _ ⟨⟩
    rfl
  · have hlt := Nat.lt_of_not_le hle
    rw [Window.read_of_lt hlt] at harray
    rw [harray]
    -- The upper limit lies behind the lower one, so its place does not wrap where that one is read.
    cases hlow : band.arrayElement Int32 0 m.window with
    | error e => exact ⟨rfl, by rintro _ _ ⟨⟩⟩
    | ok low =>
      rw [Binding.arrayElement_of_visible hk hs (by decide), Nat.zero_mul, Nat.add_zero,
        hoffset] at hlow
      have hfirst := Window.le_of_readElement hlow
      have hword : wordOf (band.offset + 1 * Types.priceBand.primitive.size) = band.offset + 4 :=
        Window.wordOf_of_le (w := m.window) hfirst
      have hhigh : band.arrayElement Int32 1 m.window =
          .error (m.window.tooShort (band.offset + 4 + 4)) := by
        have hread : m.window.read (band.offset + 4) (Element.size Int32) = _ :=
          Window.read_of_lt hlt
        rw [Binding.arrayElement_of_visible hk hs (by decide), Window.readElement, hword, hread]
        rfl
      rw [hhigh]
      exact ⟨rfl, by rintro _ _ ⟨⟩⟩

theorem Snapshot.accessors {m : Message} (hm : m.definition = definition)
    (hw : m.window.limit ≤ m.window.bytes.length) : Accessors m := by
  have hnamed {f : Field} (name : String) (h : Field.named? definition.fields name = some f) :
      Reaches (m.body.entryNamed name) m.window (.ok (m.bind f)) f :=
    Message.reaches (by rw [hm]; exact h)
  have hsecurityId := hnamed "securityID" rfl
  have hlastRptSeq := hnamed "lastRptSeq" rfl
  have hsymbol := hnamed "symbol" rfl
  have hband := hnamed "priceBand" rfl
  have hexchange := hnamed "securityExchange" rfl
  have hentries := hnamed "noMDEntries" rfl
  have hmemo := hnamed "memo" rfl
  exact {
    securityId := hsecurityId.value Fields.securityId_numbers
    lastRptSeq := hlastRptSeq.value? Fields.lastRptSeq_numbers
    symbol := ⟨_, hsymbol.text rfl rfl (by rintro _ ⟨⟩), rfl⟩
    priceBand := ⟨_, hband.untyped rfl, priceBand_value hw⟩
    securityExchange := ⟨_, hexchange.text rfl rfl (by rintro _ ⟨⟩), rfl⟩
    noMdEntries := Message.onField_eq (hentries.elements rfl)
    entries := fun _ _ => definition_noMdEntries
    memo := Message.onField_eq (hmemo.payload rfl)
    setSecurityId := fun v => Message.onField_eq (hsecurityId.setValue Fields.securityId_numbers v)
    setLastRptSeq := fun v? =>
      Message.onField_eq (hlastRptSeq.setValue? Fields.lastRptSeq_numbers v?)
    setSymbol := fun v => Message.onField_eq (hsymbol.setText rfl rfl (utf8 v))
    setPriceBand := fun low high =>
      have : ElementOf Int32 Types.priceBand.primitive :=
        (inferInstance : ElementOf Int32 .int32)
      Message.onField_eq (hband.setArray (t := Types.priceBand) rfl (by decide) [low, high])
    noMdEntriesCount := fun count =>
      (noMdEntriesCount_eq count m).trans (Message.onField_eq (hentries.resetCount rfl count))
    setMemo := fun v => Message.onField_eq (hmemo.setPayload rfl (utf8 v)) }

/-- Typed accessors and fields found by name agree, whatever the bytes, the position, the limit, the
length of the fixed part and the version. -/
theorem accessors_agree (m : Message) (hw : m.window.limit ≤ m.window.bytes.length) :
    (m.definition = EmptyBook.definition → EmptyBook.Accessors m) ∧
      (m.definition = Snapshot.definition → Snapshot.Accessors m) ∧
      (∀ it : Iteration, it.group.definition = Entries.group → Entries.Accessors it) ∧
      ∀ (price : CompositeView) (w : Window), price.definition = Composites.priceOptional →
        Price.Accessors price w :=
  ⟨EmptyBook.accessors, fun hm => Snapshot.accessors hm hw, fun _ => Entries.accessors,
    fun _ w hp => Price.accessors hp w⟩

theorem accessors_agree_snapshot :
    ∃ m, Message.wrapForDecode (List.replicate 60 0) 0 60 28 2 Snapshot.definition = .ok m ∧
      Snapshot.Accessors m :=
  ⟨_, rfl, (accessors_agree _ (by decide)).2.1 rfl⟩

end Market

end SimpleBinary
