import SimpleBinary.BitSet
import SimpleBinary.Market.Schema

namespace SimpleBinary.Market

structure EventFlags where
  set : BitSet
  deriving DecidableEq

namespace EventFlags

def none : EventFlags := ⟨.empty .uint8⟩

def raw (flags : EventFlags) : UInt8 :=
  UInt8.ofNat flags.set.bits

def isSet (flags : EventFlags) (bit : Nat) : Bool :=
  flags.set.contains bit

def assign (flags : EventFlags) (bit : Nat) (on : Bool) : EventFlags :=
  ⟨flags.set.assign bit on⟩

def lastTradeMsg (flags : EventFlags) : Bool := flags.isSet 0

def lastVolumeMsg (flags : EventFlags) : Bool := flags.isSet 1

def lastQuoteMsg (flags : EventFlags) : Bool := flags.isSet 2

def lastStatsMsg (flags : EventFlags) : Bool := flags.isSet 3

def lastImpliedMsg (flags : EventFlags) : Bool := flags.isSet 4

def recoveryMsg (flags : EventFlags) : Bool := flags.isSet 5

def reserved (flags : EventFlags) : Bool := flags.isSet 6

def endOfEvent (flags : EventFlags) : Bool := flags.isSet 7

def toList (flags : EventFlags) : List Bool :=
  [flags.lastTradeMsg, flags.lastVolumeMsg, flags.lastQuoteMsg, flags.lastStatsMsg,
    flags.lastImpliedMsg, flags.recoveryMsg, flags.reserved, flags.endOfEvent]

end EventFlags

inductive MdEntryType where
  | bid
  | offer
  | trade
  | openingPrice
  | settlementPrice
  | impliedBid
  | impliedOffer
  | emptyBook
  | absent
  | unknown (raw : UInt8)
  deriving DecidableEq, Repr

namespace MdEntryType

def ofRaw (raw : UInt64) : MdEntryType :=
  let byte := raw.toUInt8
  match byte.toNat with
  | 0x30 => bid
  | 0x31 => offer
  | 0x32 => trade
  | 0x34 => openingPrice
  | 0x36 => settlementPrice
  | 0x45 => impliedBid
  | 0x46 => impliedOffer
  | 0x4a => emptyBook
  | 0 => absent
  | _ => unknown byte

def raw : MdEntryType → UInt64
  | bid => 0x30
  | offer => 0x31
  | trade => 0x32
  | openingPrice => 0x34
  | settlementPrice => 0x36
  | impliedBid => 0x45
  | impliedOffer => 0x46
  | emptyBook => 0x4a
  | absent => 0
  | unknown byte => byte.toUInt64

def symbol : MdEntryType → String
  | absent => "NULL_VAL"
  | unknown byte => "UNKNOWN(" ++ String.ofList (Nat.toDigits 10 byte.toNat) ++ ")"
  | known => (mdEntryType.nameOf? known.raw).getD "UNKNOWN"

def ofSymbol (symbol : String) : Except Error MdEntryType :=
  if symbol = "NULL_VAL" then .ok absent
  else match mdEntryType.valueOf? symbol with
    | some raw => .ok (ofRaw raw)
    | none => .error (.unknownEnumName mdEntryType.name)

end MdEntryType

end SimpleBinary.Market
