import SimpleBinary.Field.Enumeration
import SimpleBinary.Field.Scalar
import SimpleBinary.Field.Text
import SimpleBinary.Market.Codes
import SimpleBinary.Message.Basic

namespace SimpleBinary.Market

namespace Price

open scoped Power

def mantissa (price : CompositeView) (w : Window) : Except Error (Option Int64) :=
  (price.members.bind w.version Composites.mantissa).scalar? Int64 w

def exponent (price : CompositeView) (w : Window) : Except Error Int8 :=
  (price.members.bind w.version Composites.exponent).scalar Int8 w

def setMantissa (price : CompositeView) (value : Option Int64) : Action Window Unit := do
  (price.members.bind (← get).version Composites.mantissa).setScalar? value

def amount (mantissa : Int64) (exponent : Int8) : Binary64 :=
  let power := exponent.toInt
  let scale :=
    if 0 ≤ power then Binary64.ofRatio false (10 ^ power.toNat) 1
    else Binary64.ofRatio false 1 (10 ^ (-power).toNat)
  (Binary64.ofInt mantissa.toInt).mul scale

end Price

namespace Entries

def mdEntryPx (it : Iteration) : Except Error CompositeView := do
  CompositeView.ofBinding (← it.bind Fields.mdEntryPx)

def mdEntrySize (it : Iteration) : Except Error Int64 := do
  (← it.bind Fields.mdEntrySize).scalar Int64 it.window

def orderId (it : Iteration) : Except Error (Option UInt64) := do
  (← it.bind Fields.orderId).scalar? UInt64 it.window

def mdEntryType (it : Iteration) : Except Error MdEntryType := do
  return .ofRaw (← (← it.bind Fields.mdEntryType).enumRaw it.window)

def enteringFirm (it : Iteration) : Except Error (Option UInt32) := do
  (← it.bind Fields.enteringFirm).scalar? UInt32 it.window

def mdEntryPositionNo (it : Iteration) : Except Error (Option UInt32) := do
  (← it.bind Fields.mdEntryPositionNo).scalar? UInt32 it.window

def setMantissa (value : Option Int64) : Action Iteration Unit := do
  let price ← mdEntryPx (← get)
  Iteration.onWindow (Price.setMantissa price value)

def setMdEntrySize (value : Int64) : Action Iteration Unit :=
  Iteration.onField Fields.mdEntrySize (·.setScalar value)

def setOrderId (value : Option UInt64) : Action Iteration Unit :=
  Iteration.onField Fields.orderId (·.setScalar? value)

def setMdEntryType (value : MdEntryType) : Action Iteration Unit :=
  Iteration.onField Fields.mdEntryType (·.setEnumRaw value.raw)

def setEnteringFirm (value : Option UInt32) : Action Iteration Unit :=
  Iteration.onField Fields.enteringFirm (·.setScalar? value)

def setMdEntryPositionNo (value : Option UInt32) : Action Iteration Unit :=
  Iteration.onField Fields.mdEntryPositionNo (·.setScalar? value)

structure Content where
  mantissa : Option Int64
  mdEntrySize : Int64
  orderId : Option UInt64
  mdEntryType : MdEntryType
  enteringFirm : Option UInt32
  mdEntryPositionNo : Option UInt32

def write (content : Content) : Action Iteration Unit := do
  setMantissa content.mantissa
  setMdEntrySize content.mdEntrySize
  setOrderId content.orderId
  setMdEntryType content.mdEntryType
  setEnteringFirm content.enteringFirm
  setMdEntryPositionNo content.mdEntryPositionNo

def writeAll : List Content → Action Iteration Unit
  | [] => return
  | content :: rest => do
    discard Iteration.next
    write content
    writeAll rest

end Entries

namespace Snapshot

def securityId (m : Message) : Except Error UInt64 :=
  (m.bind Fields.securityId).scalar UInt64 m.window

def lastRptSeq (m : Message) : Except Error (Option UInt32) :=
  (m.bind Fields.lastRptSeq).scalar? UInt32 m.window

def symbol (m : Message) : Except Error String :=
  (m.bind Fields.symbol).textString m.window

def priceBand (m : Message) : Except Error (Int32 × Int32) := do
  let band := m.bind Fields.priceBand
  return (← band.arrayElement Int32 0 m.window, ← band.arrayElement Int32 1 m.window)

def securityExchange (m : Message) : Except Error String :=
  (m.bind Fields.securityExchange).textString m.window

def noMdEntries : Action Message GroupView :=
  Message.onField Fields.noMdEntries GroupView.ofBinding

def noMdEntriesCount (count : Nat) : Action Message GroupView := do
  let entries ← noMdEntries
  Message.iterate entries do
    Iteration.resetCount count
    return (← get).group

def memo : Action Message Bytes :=
  Message.onField Fields.memo fun b => do (← DataView.ofBinding b).value

def setSecurityId (value : UInt64) : Action Message Unit :=
  Message.onField Fields.securityId (·.setScalar value)

def setLastRptSeq (value : Option UInt32) : Action Message Unit :=
  Message.onField Fields.lastRptSeq (·.setScalar? value)

def setSymbol (value : String) : Action Message Unit :=
  Message.onField Fields.symbol (·.setText (utf8 value))

def setPriceBand (low high : Int32) : Action Message Unit :=
  Message.onField Fields.priceBand (·.setArray [low, high])

def setMemo (value : String) : Action Message Unit :=
  Message.onField Fields.memo fun b => do (← DataView.ofBinding b).setValue (utf8 value)

structure Content where
  securityId : UInt64
  lastRptSeq : Option UInt32
  symbol : String
  lowLimit : Int32
  highLimit : Int32
  entries : List Entries.Content
  memo : String

def write (content : Content) : Action Message Unit := do
  setSecurityId content.securityId
  setLastRptSeq content.lastRptSeq
  setSymbol content.symbol
  setPriceBand content.lowLimit content.highLimit
  let entries ← noMdEntriesCount content.entries.length
  Message.iterate entries (Entries.writeAll content.entries)
  setMemo content.memo

end Snapshot

end SimpleBinary.Market
