import SimpleBinary.Field.Binding
import SimpleBinary.Value

namespace SimpleBinary.Binding

def writeText (b : Binding) (capacity : Nat) (characters : Bytes) : Action Window Unit := do
  if capacity < characters.length then
    throw (.lengthMismatch b.field.name capacity characters.length)
  discard <| (← get).check b.offset capacity
  Window.write b.offset (characters.padded capacity)

/-- The value of a primitive field: its constant, or what is stored. A field that is not visible
has its null value, and no characters or elements. -/
def value (b : Binding) (w : Window) : Except Error Value := do
  let t ← b.typeDef
  match ← b.constant? with
  | some constant => return constant.toValue
  | none =>
    if t.length = 1 then
      if b.visible then return .scalar (← w.readScalar b.offset t.primitive)
      else return .scalar t.null
    else
      let bytes ← if b.visible then w.read b.offset t.encodedLength else pure []
      if t.isText then return .text bytes.untilZero
      else return .array (.ofBytes bytes t.primitive)

def setValue (b : Binding) (value : Value) : Action Window Unit := do
  let t ← b.typeDef
  match ← b.constant? with
  | some constant =>
    if !constant.matchesValue t.primitive value then throw b.constantMismatch
  | none =>
    b.requireVisible
    match value with
    | .scalar scalar =>
      if t.length ≠ 1 then throw b.kindMismatch
      Window.writeScalar b.offset t.primitive scalar
    | .text characters =>
      if t.primitive ≠ .char then throw b.kindMismatch
      b.writeText t.length characters
    | .array elements =>
      if elements.primitive ≠ t.primitive then throw b.kindMismatch
      if elements.length ≠ t.length then
        throw (.lengthMismatch b.field.name t.length elements.length)
      Window.write b.offset elements.bytes

end SimpleBinary.Binding
