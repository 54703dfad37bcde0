import SimpleBinary.Field.Dynamic

namespace SimpleBinary

def elements (α : Type) [Element α] (bytes : Bytes) : List α :=
  (Bytes.pieces (Element.size α) (bytes.length / Element.size α) bytes).map Element.decode

def elementBytes {α : Type} [Element α] (values : List α) : Bytes :=
  values.flatMap Element.encode

namespace Binding

def arrayType (b : Binding) (α : Type) [Element α] : Except Error TypeDef := do
  let t ← b.typeDef
  if t.primitive.size ≠ Element.size α then throw b.kindMismatch
  return t

def arrayLength (b : Binding) (α : Type) [Element α] : Except Error Nat :=
  (b.arrayType α).map (·.length)

def array (b : Binding) (α : Type) [Element α] (w : Window) : Except Error (List α) := do
  let t ← b.arrayType α
  match ← b.constant? with
  | some (.text characters) =>
    if Element.size α ≠ 1 then throw b.kindMismatch
    return elements α (utf8 characters)
  | some (.scalar _) => throw b.kindMismatch
  | none =>
    if b.visible then return elements α (← w.read b.offset t.encodedLength)
    else return []

def checkIndex (b : Binding) (t : TypeDef) (index : Nat) : Except Error Unit :=
  if index < t.length then .ok ()
  else .error (.lengthMismatch b.field.name t.length (wordOf (index + 1)))

def arrayElement (b : Binding) (α : Type) [Element α] (index : Nat) (w : Window) :
    Except Error α := do
  let t ← b.arrayType α
  b.checkIndex t index
  match ← b.constant? with
  | some constant => return Element.ofScalar (constant.element index)
  | none =>
    if b.visible then w.readElement α (wordOf (b.offset + index * Element.size α))
    else return Element.ofScalar t.null

def setArray {α : Type} [Element α] (b : Binding) (values : List α) : Action Window Unit := do
  let t ← b.arrayType α
  match ← b.constant? with
  | some constant =>
    let same := values.zipIdx.all fun (value, index) =>
      t.primitive.equal (Element.toScalar value) (constant.element index)
    if values.length ≠ t.length ∨ !same then throw b.constantMismatch
  | none =>
    b.requireVisible
    if values.length ≠ t.length then
      throw (.lengthMismatch b.field.name t.length values.length)
    Window.write b.offset (elementBytes values)

def setArrayElement {α : Type} [Element α] (b : Binding) (index : Nat) (value : α) :
    Action Window Unit := do
  let t ← b.arrayType α
  b.requireVisible
  b.checkIndex t index
  match ← b.constant? with
  | some constant =>
    if !t.primitive.equal (Element.toScalar value) (constant.element index) then
      throw b.constantMismatch
  | none => Window.writeElement (wordOf (b.offset + index * Element.size α)) value

end Binding

end SimpleBinary
