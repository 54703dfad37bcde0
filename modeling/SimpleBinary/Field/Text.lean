import SimpleBinary.Field.Dynamic
import SimpleBinary.Text.Utf8

namespace SimpleBinary.Binding

def textCapacity (b : Binding) : Except Error Nat := do
  let t ← b.typeDef
  if t.primitive ≠ .char then throw b.kindMismatch
  return t.length

def text (b : Binding) (w : Window) : Except Error Bytes := do
  let capacity ← b.textCapacity
  match ← b.constant? with
  | some (.text characters) => return utf8 characters
  | some (.scalar _) => throw b.kindMismatch
  | none =>
    if b.visible then return (← w.read b.offset capacity).untilZero
    else return []

def textString (b : Binding) (w : Window) : Except Error String := do
  match Utf8.decode? (← b.text w) with
  | some characters => return characters
  | none => throw (.invalidText b.field.name)

def setText (b : Binding) (characters : Bytes) : Action Window Unit := do
  let capacity ← b.textCapacity
  match ← b.constant? with
  | some constant =>
    if !constant.matchesValue .char (.text characters) then throw b.constantMismatch
  | none =>
    b.requireVisible
    b.writeText capacity characters

end SimpleBinary.Binding
