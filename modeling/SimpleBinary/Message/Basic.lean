import SimpleBinary.Message.Header
import SimpleBinary.Traversal

/-!
A message in a window: its fixed part has a length and a version in effect, which may be older or
newer than those of its schema, and the position runs from the end of the fixed part over groups
and data.
-/

namespace SimpleBinary

structure Message where
  window : Window
  definition : MessageDef
  offset : Nat
  headerOffset : Option Nat
  blockLength : Nat

namespace Message

def wrapForDecode (bytes : Bytes) (offset limit blockLength : Nat) (version : UInt16)
    (definition : MessageDef) : Except Error Message := do
  let stop := offset + blockLength
  if Window.maxPosition < stop then throw (.bufferTooShort Window.maxPosition limit)
  let window ← Window.open? bytes limit stop version
  return ⟨window, definition, offset, none, blockLength⟩

def wrapForEncode (bytes : Bytes) (offset limit : Nat) (definition : MessageDef) :
    Except Error Message :=
  wrapForDecode bytes offset limit definition.blockLength definition.schema.version definition

def readFrame (bytes : Bytes) (offset limit : Nat) (definition : MessageDef) :
    Except Error Message := do
  let probe ← Window.open? bytes limit offset 0
  let header ← MessageHeader.read (← probe.read offset MessageHeader.size)
  header.validate definition
  let m ← wrapForDecode bytes (offset + MessageHeader.size) limit header.blockLength.toNat
    header.version definition
  return { m with headerOffset := some offset }

def writeFrame (offset limit : Nat) (definition : MessageDef) : Action Bytes Message := do
  let window ← Window.open? (← get) limit offset definition.schema.version
  discard <| window.check offset (MessageHeader.size + definition.blockLength)
  -- Nothing is written unless the fixed part fits behind the header.
  modify fun bytes => bytes.overwrite offset (MessageHeader.ofMessage definition).toBytes
  let m ← wrapForEncode (← get) (offset + MessageHeader.size) limit definition
  return { m with headerOffset := some offset }

def position (m : Message) : Nat :=
  m.window.position

def version (m : Message) : UInt16 :=
  m.window.version

def encodedLength (m : Message) : Nat :=
  m.position - m.offset

def body (m : Message) : Block :=
  ⟨m.offset, m.definition.fields, true⟩

def bind (m : Message) (f : Field) : Binding :=
  m.body.bind m.version f

def header (m : Message) : Except Error CompositeView :=
  match m.headerOffset with
  | some offset => .ok ⟨⟨MessageHeader.field, offset, true⟩, MessageHeader.composite⟩
  | none => .error .fieldNotFound

def onWindow {α : Type} (action : Action Window α) : Action Message α :=
  Action.onPart window (fun w m => { m with window := w }) action

def onField {α : Type} (f : Field) (action : Binding → Action Window α) : Action Message α := do
  onWindow (action ((← get).bind f))

def iterate {α : Type} (group : GroupView) (steps : Action Iteration α) : Action Message α :=
  onWindow (Iteration.run group steps)

def rewind (m : Message) : Message :=
  { m with window := (Window.seek (m.offset + m.blockLength) m.window).2 }

def skip : Action Message Nat := do
  modify rewind
  onWindow (skipFields (← get).definition.fields)
  return (← get).encodedLength

end Message

end SimpleBinary
