import SimpleBinary.Window
import SimpleBinary.Schema.Table

namespace SimpleBinary

structure MessageHeader where
  blockLength : UInt16
  templateId : UInt16
  schemaId : UInt16
  version : UInt16
  deriving DecidableEq, Repr

namespace MessageHeader

def size : Nat := 8

/-- The header of a message at the current version of its schema; of the length of the fixed part
it has the lowest 16 bits. -/
def ofMessage (m : MessageDef) : MessageHeader :=
  ⟨UInt16.ofNat m.blockLength, m.id, m.schema.id, m.schema.version⟩

def validate (h : MessageHeader) (m : MessageDef) : Except Error Unit :=
  if h.templateId ≠ m.id then .error (.templateMismatch m.id h.templateId)
  else if h.schemaId ≠ m.schema.id then .error (.schemaMismatch m.schema.id h.schemaId)
  else .ok ()

def toBytes (h : MessageHeader) : Bytes :=
  LittleEndian.encode 2 h.blockLength.toNat ++ LittleEndian.encode 2 h.templateId.toNat ++
    LittleEndian.encode 2 h.schemaId.toNat ++ LittleEndian.encode 2 h.version.toNat

private def word (bytes : Bytes) (start : Nat) : UInt16 :=
  UInt16.ofNat (LittleEndian.decode (bytes.slice start 2))

def read (bytes : Bytes) : Except Error MessageHeader :=
  if bytes.length < size then .error (.bufferTooShort size bytes.length)
  else .ok ⟨word bytes 0, word bytes 2, word bytes 4, word bytes 6⟩

def write (h : MessageHeader) : Action Bytes Unit := do
  let bytes ← get
  if bytes.length < size then throw (.bufferTooShort size bytes.length)
  set (bytes.overwrite 0 h.toBytes)

private def member (name : String) (offset : Nat) : Field :=
  .required name 0 offset (.type (.plain "uint16" .uint16 1))

def composite : CompositeDef :=
  .ofFields "messageHeader"
    [member "blockLength" 0, member "templateId" 2, member "schemaId" 4, member "version" 6]

def field : Field :=
  .required "messageHeader" 0 0 (.composite composite)

end MessageHeader

end SimpleBinary
