import SimpleBinary.Schema.Table

namespace SimpleBinary.Market

def schema : SchemaInfo := ⟨"marketdata", 2, 2⟩

namespace Types

def uint8 : TypeDef := .plain "uint8" .uint8 1

def uint16 : TypeDef := .plain "uint16" .uint16 1

def uint32 : TypeDef := .plain "uint32" .uint32 1

def securityId : TypeDef := .plain "SecurityID" .uint64 1

def localMktDate : TypeDef := .plain "LocalMktDate" .uint16 1

def seqNum : TypeDef := { TypeDef.plain "SeqNum" .uint32 1 with null? := some (.uint 0) }

def symbol : TypeDef := .plain "Symbol" .char 8

def priceBand : TypeDef := .plain "PriceBand" .int32 2

def securityExchange : TypeDef := .plain "SecurityExchange" .char 4

def quantity : TypeDef := .plain "Quantity" .int64 1

def orderId : TypeDef := .plain "OrderID" .uint64 1

def firm : TypeDef := .plain "Firm" .uint32 1

def mantissa : TypeDef := .plain "Int64" .int64 1

def exponent : TypeDef := .plain "Int8" .int8 1

def varData : TypeDef := .plain "varData" .char 0

end Types

namespace Composites

def groupSizeEncoding : CompositeDef :=
  .ofFields "groupSizeEncoding" [
    .required "blockLength" 0 0 (.type Types.uint16),
    .required "numInGroup" 0 2 (.type Types.uint8)]

def varString8 : CompositeDef :=
  .ofFields "varString8" [
    .required "length" 0 0 (.type Types.uint8),
    .required "varData" 0 1 (.type Types.varData)]

def mantissa : Field :=
  (Field.required "mantissa" 0 0 (.type Types.mantissa)).optional

def exponent : Field :=
  (Field.required "exponent" 0 8 (.type Types.exponent)).constantly (.scalar (.int (-4)))

def priceOptional : CompositeDef :=
  .ofFields "PriceOptional" [mantissa, exponent]

end Composites

def matchEventIndicator : SetDef :=
  ⟨"MatchEventIndicator", .uint8, [
    ⟨"LastTradeMsg", 0, 0⟩,
    ⟨"LastVolumeMsg", 1, 0⟩,
    ⟨"LastQuoteMsg", 2, 0⟩,
    ⟨"LastStatsMsg", 3, 0⟩,
    ⟨"LastImpliedMsg", 4, 0⟩,
    ⟨"RecoveryMsg", 5, 0⟩,
    ⟨"Reserved", 6, 0⟩,
    ⟨"EndOfEvent", 7, 0⟩]⟩

private def letter (c : Char) : UInt64 :=
  UInt64.ofNat c.toNat

def mdEntryType : EnumDef :=
  ⟨"MDEntryType", .char, EnumDef.defaultNull .char, [
    ⟨"BID", letter '0', 0⟩,
    ⟨"OFFER", letter '1', 0⟩,
    ⟨"TRADE", letter '2', 0⟩,
    ⟨"OPENING_PRICE", letter '4', 0⟩,
    ⟨"SETTLEMENT_PRICE", letter '6', 0⟩,
    ⟨"IMPLIED_BID", letter 'E', 2⟩,
    ⟨"IMPLIED_OFFER", letter 'F', 2⟩,
    ⟨"EMPTY_BOOK", letter 'J', 0⟩]⟩

namespace EmptyBook

namespace Fields

def securityId : Field :=
  .required "securityID" 48 0 (.type Types.securityId)

def matchEventIndicator : Field :=
  .required "matchEventIndicator" 5799 8 (.set Market.matchEventIndicator)

def tradeDate : Field :=
  (Field.required "tradeDate" 75 10 (.type Types.localMktDate)).optional

def rptSeq : Field :=
  ((Field.required "rptSeq" 83 12 (.type Types.seqNum)).optional).introducedIn 2

end Fields

def definition : MessageDef :=
  ⟨"IncrementalRefresh_EmptyBook", 9, 16,
    [Fields.securityId, Fields.matchEventIndicator, Fields.tradeDate, Fields.rptSeq], schema⟩

end EmptyBook

namespace Entries

namespace Fields

def mdEntryPx : Field :=
  (Field.required "mDEntryPx" 270 0 (.composite Composites.priceOptional)).optional

def mdEntrySize : Field :=
  .required "mDEntrySize" 271 8 (.type Types.quantity)

def orderId : Field :=
  (Field.required "orderID" 37 16 (.type Types.orderId)).optional

def mdEntryType : Field :=
  .required "mDEntryType" 269 24 (.enum Market.mdEntryType)

def enteringFirm : Field :=
  (Field.required "enteringFirm" 1003 25 (.type Types.firm)).optional

def mdEntryPositionNo : Field :=
  ((Field.required "mDEntryPositionNo" 290 29 (.type Types.uint32)).optional).introducedIn 2

end Fields

def group : GroupDef :=
  { name := "noMDEntries"
    dimension := Composites.groupSizeEncoding
    blockLengthMember := ⟨0, .uint16⟩
    numInGroupMember := ⟨2, .uint8⟩
    blockLength := 33
    fields := [Fields.mdEntryPx, Fields.mdEntrySize, Fields.orderId, Fields.mdEntryType,
      Fields.enteringFirm, Fields.mdEntryPositionNo] }

theorem group_checked :
    GroupOf.checked "noMDEntries" Composites.groupSizeEncoding 33 group.fields = .ok group := rfl

end Entries

namespace Snapshot

def memoData : DataDef :=
  { name := "Memo"
    encoding := Composites.varString8
    lengthMember := ⟨0, .uint8⟩
    varDataMember := ⟨1, .char⟩ }

theorem memoData_checked : DataOf.checked "Memo" Composites.varString8 = .ok memoData := rfl

namespace Fields

def securityId : Field :=
  .required "securityID" 48 0 (.type Types.securityId)

def lastRptSeq : Field :=
  (Field.required "lastRptSeq" 83 8 (.type Types.seqNum)).optional

def symbol : Field :=
  (Field.required "symbol" 55 12 (.type Types.symbol)).optional

def priceBand : Field :=
  .required "priceBand" 1148 20 (.type Types.priceBand)

def securityExchange : Field :=
  (Field.required "securityExchange" 207 28 (.type Types.securityExchange)).constantly
    (.text "BVMF")

def noMdEntries : Field :=
  .required "noMDEntries" 268 0 (.group Entries.group)

def memo : Field :=
  .required "memo" 5149 0 (.data memoData)

end Fields

def definition : MessageDef :=
  ⟨"SnapshotFullRefresh_Orders_MBO", 71, 28,
    [Fields.securityId, Fields.lastRptSeq, Fields.symbol, Fields.priceBand,
      Fields.securityExchange, Fields.noMdEntries, Fields.memo], schema⟩

end Snapshot

def messages : List MessageDef :=
  [EmptyBook.definition, Snapshot.definition]

def messageFor? (templateId : UInt16) : Option MessageDef :=
  messages.find? (·.id == templateId)

end SimpleBinary.Market
