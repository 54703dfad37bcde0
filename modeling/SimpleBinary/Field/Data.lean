import SimpleBinary.Field.Array
import SimpleBinary.Text.Utf8

/-!
Variable data: a length and as many elements at the position of the window. Reading or writing the
payload moves the position over it, and a failure before that leaves the position. Data that is not
visible has no elements and takes no bytes.
-/

namespace SimpleBinary

structure DataView where
  field : Field
  definition : DataDef
  visible : Bool

namespace DataView

def ofBinding (b : Binding) : Except Error DataView :=
  match b.field.kind with
  | .data d => .ok ⟨b.field, d, b.visible⟩
  | _ => .error b.kindMismatch

def elementSize (d : DataView) : Nat :=
  d.definition.varDataMember.primitive.size

def headerLength (d : DataView) : Nat :=
  d.definition.headerLength

def checkElement (d : DataView) (α : Type) [Element α] : Except Error Unit :=
  if d.elementSize = Element.size α then .ok () else .error (.kindMismatch d.field.name)

def length (d : DataView) (w : Window) : Except Error Nat := do
  if !d.visible then return 0
  let member := d.definition.lengthMember
  return (← w.readScalar (wordOf (w.position + member.offset)) member.primitive).toUInt64.toNat

def payload (d : DataView) (w : Window) : Except Error (Nat × Nat) := do
  let start := wordOf (w.position + d.headerLength)
  let size := (← d.length w) * d.elementSize
  -- A product that is no word counts as the greatest one.
  if Window.maxPosition < size then throw (.bufferTooShort Window.maxPosition w.limit)
  discard <| w.check start size
  return (start, size)

def skip (d : DataView) : Action Window Nat := do
  if !d.visible then return 0
  let count ← Action.query d.length
  let (_, size) ← Action.query d.payload
  discard <| Window.advance (wordOf (d.headerLength + size))
  return count

def value (d : DataView) : Action Window Bytes := do
  if !d.visible then return []
  let (start, size) ← Action.query d.payload
  discard <| Window.advance (wordOf (d.headerLength + size))
  (← get).read start size

def valueArray (d : DataView) : Action Window ScalarArray :=
  return .ofBytes (← d.value) d.definition.varDataMember.primitive

def values (d : DataView) (α : Type) [Element α] : Action Window (List α) := do
  d.checkElement α
  return elements α (← d.value)

/-- The payload as a string. The position moves over it even if it is not UTF-8. -/
def valueString (d : DataView) : Action Window String := do
  match Utf8.decode? (← d.value) with
  | some characters => return characters
  | none => throw (.invalidText d.field.name)

def writeLength (d : DataView) (count size : Nat) : Action Window Nat := do
  let w ← get
  if !d.visible then throw (d.field.notInVersion w.version)
  let member := d.definition.lengthMember
  if member.primitive.rawMax < count then throw (.lengthOverflow d.field.name count)
  discard <| w.check w.position (d.headerLength + size)
  Window.writeScalar (wordOf (w.position + member.offset)) member.primitive
    (.uint (UInt64.ofNat count))
  return wordOf (w.position + d.headerLength)

def setValue (d : DataView) (bytes : Bytes) : Action Window Unit := do
  let rest := bytes.length % d.elementSize
  if rest ≠ 0 then throw (.lengthMismatch d.field.name (bytes.length - rest) bytes.length)
  let start ← d.writeLength (bytes.length / d.elementSize) bytes.length
  Window.write start bytes
  discard <| Window.advance (wordOf (d.headerLength + bytes.length))

def writeElements {α : Type} [Element α] : Nat → List α → Action Window Unit
  | _, [] => return
  | start, value :: rest => do
    Window.writeElement start value
    writeElements (wordOf (start + Element.size α)) rest

def setValues {α : Type} [Element α] (d : DataView) (values : List α) : Action Window Unit := do
  d.checkElement α
  let size := values.length * Element.size α
  let start ← d.writeLength values.length size
  writeElements start values
  discard <| Window.advance (wordOf (d.headerLength + size))

end DataView

end SimpleBinary
