import SimpleBinary.Json.Import
import SimpleBinary.Market.Stream
import SimpleBinary.Text.Hex

namespace SimpleBinary.Market.Transcript

open Report (natural integer list)

private def option {α : Type} (text : α → String) : Option α → String
  | some value => "Some(" ++ text value ++ ")"
  | none => "None"

private def zeros (count : Nat) : Bytes :=
  List.replicate count 0

private def frame (content : Content) (capacity : Nat) : Except Error (Bytes × Nat) := do
  let (size, bytes) ← (content.writeFrame 0 capacity).complete (zeros capacity)
  return (bytes, size)

private def lines (texts : List String) : String :=
  String.join (texts.map (· ++ "\n"))

private def emptyBookLines : Except Error (List String) := do
  let flags := (EventFlags.none.assign 0 true).assign 2 true
  let content : Content := .emptyBook ⟨991, flags, some 20100, none⟩
  let (bytes, size) ← frame content 64
  let octets := (bytes.take size).map fun byte => String.ofList (Hex.ofByte byte)
  let m ← Message.readFrame bytes 0 size content.definition
  let flags ← EmptyBook.matchEventIndicator m
  let boolean (b : Bool) : String := if b then "true" else "false"
  return [
    "",
    "1. Empty Book Message:",
    "  Encoded " ++ natural size ++ " bytes: " ++ list octets,
    "  Decoded: securityID=" ++ natural (← EmptyBook.securityId m).toNat ++
      ", flags=0x" ++ Hex.ofNat 2 flags.raw.toNat ++
      " (trade=" ++ boolean flags.lastTradeMsg ++ ", quote=" ++ boolean flags.lastQuoteMsg ++
      "), tradeDate=" ++ option (natural ·.toNat) (← EmptyBook.tradeDate m) ++
      ", rptSeq=" ++ option (natural ·.toNat) (← EmptyBook.rptSeq m)]

private def auction : Content :=
  .snapshot {
    securityId := 42
    lastRptSeq := some 7
    symbol := "PETR4"
    lowLimit := -100
    highLimit := 100
    entries := [
      ⟨some 251500, 300, some 1001, .bid, some 8, some 1⟩,
      ⟨some 252000, 50, some 1002, .offer, none, some 1⟩]
    memo := "opening auction" }

private def entryLines : Nat → Action Iteration (List String)
  | 0 => return []
  | n + 1 => do
    discard Iteration.next
    let it ← get
    let px ← Entries.mdEntryPx it
    let exponent ← Price.exponent px it.window
    let price := (← Price.mantissa px it.window).map (Price.amount · exponent)
    let line := "    " ++ (← Entries.mdEntryType it).symbol ++ " " ++
      integer (← Entries.mdEntrySize it).toInt ++ " @ " ++ option Report.double price ++
      " (order " ++ option (natural ·.toNat) (← Entries.orderId it) ++
      ", firm " ++ option (natural ·.toNat) (← Entries.enteringFirm it) ++ ")"
    return line :: (← entryLines n)

private def snapshotLines (bytes : Bytes) (size : Nat) : Except Error (List String) := do
  let m ← Message.readFrame bytes 0 size Snapshot.definition
  let (low, high) ← Snapshot.priceBand m
  let (entries, m) ← Snapshot.noMdEntries.complete m
  let (entryTexts, m) ← (Message.iterate entries (entryLines entries.count)).complete m
  let (memo, m) ← Snapshot.memo.complete m
  return [
    "",
    "2. Order Book Snapshot:",
    "  Encoded " ++ natural size ++ " bytes",
    "  securityID=" ++ natural (← Snapshot.securityId m).toNat ++
      ", symbol=" ++ (← Snapshot.symbol m) ++
      ", exchange=" ++ (← Snapshot.securityExchange m) ++
      ", band=" ++ list [integer low.toInt, integer high.toInt],
    "  " ++ natural entries.count ++ " entries:"] ++
    entryTexts ++
    ["  memo=" ++ Text.quoted ((Utf8.decode? memo).getD "?")]

private def rewindLines (bytes : Bytes) (size : Nat) : Except Error (List String) := do
  let m ← Message.readFrame bytes 0 size Snapshot.definition
  let (skipped, m) ← Message.skip.complete m
  let m := m.rewind
  let (entries, _) ← Snapshot.noMdEntries.complete m
  return [
    "",
    "3. Rewind:",
    "  Skipped to end: body is " ++ natural skipped ++ " bytes",
    "  Rewound to position " ++ natural m.position,
    "  Re-read group count: " ++ natural entries.count]

private def introspectionLines (bytes : Bytes) (size : Nat) : Except Error (List String) := do
  let m ← Message.readFrame bytes 0 size Snapshot.definition
  let (entry, m) ← (Message.onWindow (m.body.entryNamed "symbol")).complete m
  let field ← match entry with
    | .type b =>
      match ← b.value m.window with
      | .text characters =>
        pure ["  symbol -> Text(" ++ list (characters.map (natural ·.toNat)) ++ ")"]
      | value => pure ["  symbol -> " ++ Report.value value]
    | _ => pure []
  return [
    "",
    "4. Introspection:",
    "  Message " ++ m.definition.name ++ " (template " ++ natural m.definition.id.toNat ++ ")"] ++
    field

private def outcome {α : Type} (label : String) : Except Error α → String
  | .ok _ => "  Unexpected success"
  | .error reason => "  " ++ label ++ ": " ++ reason.message

private def errorLines (bytes : Bytes) (size : Nat) : Except Error (List String) := do
  let small := (Message.writeFrame 0 12 EmptyBook.definition).complete (zeros 12)
  let wrong := Message.readFrame bytes 0 size EmptyBook.definition
  let m ← Message.readFrame bytes 0 size Snapshot.definition
  let (entries, m) ← Snapshot.noMdEntries.complete m
  let twice : Action Iteration GroupView := do
    discard Iteration.next
    discard Iteration.next
    return (← get).group
  let (entries, m) ← (Message.iterate entries twice).complete m
  let past := (Message.iterate entries Iteration.next).complete m
  return [
    "",
    "5. Error Handling:",
    outcome "Short buffer" small,
    outcome "Wrong template" wrong,
    outcome "Past the end" past]

def basicUsage : Except Error String := do
  let title := ["sbeview Basic Usage Example", "==========================="]
  let (bytes, size) ← frame auction 256
  return lines (title ++ (← emptyBookLines) ++ (← snapshotLines bytes size) ++
    (← rewindLines bytes size) ++ (← introspectionLines bytes size) ++ (← errorLines bytes size) ++
    ["", "All examples completed successfully!"])

private def bridged : Content :=
  .snapshot {
    securityId := 42
    lastRptSeq := none
    symbol := "VALE3"
    lowLimit := -150
    highLimit := 150
    entries := [
      ⟨some 612300, 400, some 9, .bid, some 72, some 1⟩,
      ⟨none, 100, none, .unknown 0x5a, none, none⟩]
    memo := "bridged" }

def jsonBridge (J : Type) [JsonValues J] : Except ImportError String := do
  let (bytes, size) ← (frame bridged 256).mapError .codec
  let m ← (Message.readFrame bytes 0 size Snapshot.definition).mapError .codec
  let (json, _) ← ((Message.toJson : Action Message J).complete m).mapError .codec
  let (result, imported) := MessageDef.importJson messages json (zeros 256)
  let importedSize ← result
  let same := bytes.take size == imported.take importedSize
  return lines [
    JsonValues.indented json,
    "",
    "Original " ++ natural size ++ " bytes, re-imported " ++ natural importedSize ++ " bytes",
    "Byte-identical: " ++ if same then "true" else "false"]

def streamContents : List Content := [
  .emptyBook ⟨991, (EventFlags.none.assign 0 true).assign 7 true, none, some 3⟩,
  .snapshot {
    securityId := 991
    lastRptSeq := some 3
    symbol := "DOLF26"
    lowLimit := -2000
    highLimit := 2000
    entries := [
      ⟨some 54125000, 5, some 77, .impliedBid, some 3, some 1⟩,
      ⟨none, 10, none, .offer, none, some 1⟩]
    memo := "end of day" }]

def writeStream : Action Bytes Nat := do
  Stream.write (← get).length streamContents 0

def printMessage : Except Error String := do
  let (total, bytes) ← writeStream.complete (zeros 512)
  Stream.report bytes total 0

end SimpleBinary.Market.Transcript
