import SimpleBinary.Market.EmptyBook
import SimpleBinary.Market.Snapshot
import SimpleBinary.Report

namespace SimpleBinary.Market

inductive Content where
  | emptyBook (content : EmptyBook.Content)
  | snapshot (content : Snapshot.Content)

namespace Content

def definition : Content → MessageDef
  | emptyBook _ => EmptyBook.definition
  | snapshot _ => Snapshot.definition

def write : Content → Action Message Unit
  | emptyBook content => EmptyBook.write content
  | snapshot content => Snapshot.write content

def writeFrame (content : Content) (offset limit : Nat) : Action Bytes Nat := do
  let m ← Message.writeFrame offset limit content.definition
  Action.onPart (fun bytes => { m with window := { m.window with bytes } })
    (fun m _ => m.window.bytes) do
      content.write
      return MessageHeader.size + (← get).encodedLength

end Content

namespace Stream

def write (limit : Nat) : List Content → Nat → Action Bytes Nat
  | [], offset => return offset
  | content :: rest, offset => do
    let length ← content.writeFrame offset limit
    write limit rest (offset + length)

def report (bytes : Bytes) (total offset : Nat) : Except Error String := do
  if offset < total then
    let header ← MessageHeader.read (bytes.slice offset (total - offset))
    match messageFor? header.templateId with
    -- A template that the schema does not have ends the frames early.
    | none => return ""
    | some definition =>
      let m ← Message.readFrame bytes offset total definition
      let (m, text, result) := m.report
      result
      let rest ← report bytes total (offset + (MessageHeader.size + m.encodedLength))
      return text ++ "\n" ++ rest
  else return ""
termination_by total - offset
decreasing_by
  have : MessageHeader.size = 8 := rfl
  omega

end Stream

end SimpleBinary.Market
