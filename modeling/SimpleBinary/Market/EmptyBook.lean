import SimpleBinary.Field.Choices
import SimpleBinary.Field.Scalar
import SimpleBinary.Market.Codes
import SimpleBinary.Message.Basic

namespace SimpleBinary.Market.EmptyBook

def securityId (m : Message) : Except Error UInt64 :=
  (m.bind Fields.securityId).scalar UInt64 m.window

def matchEventIndicator (m : Message) : Except Error EventFlags :=
  ((m.bind Fields.matchEventIndicator).bits m.window).map EventFlags.mk

def tradeDate (m : Message) : Except Error (Option UInt16) :=
  (m.bind Fields.tradeDate).scalar? UInt16 m.window

def rptSeq (m : Message) : Except Error (Option UInt32) :=
  (m.bind Fields.rptSeq).scalar? UInt32 m.window

def setSecurityId (value : UInt64) : Action Message Unit :=
  Message.onField Fields.securityId (·.setScalar value)

def setMatchEventIndicator (flags : EventFlags) : Action Message Unit :=
  Message.onField Fields.matchEventIndicator (·.setBits flags.set)

def setTradeDate (value : Option UInt16) : Action Message Unit :=
  Message.onField Fields.tradeDate (·.setScalar? value)

def setRptSeq (value : Option UInt32) : Action Message Unit :=
  Message.onField Fields.rptSeq (·.setScalar? value)

structure Content where
  securityId : UInt64
  matchEventIndicator : EventFlags
  tradeDate : Option UInt16
  rptSeq : Option UInt32

def write (content : Content) : Action Message Unit := do
  setSecurityId content.securityId
  setMatchEventIndicator content.matchEventIndicator
  setTradeDate content.tradeDate
  setRptSeq content.rptSeq

end SimpleBinary.Market.EmptyBook
