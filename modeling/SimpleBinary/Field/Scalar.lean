import SimpleBinary.Field.Dynamic

namespace SimpleBinary.Binding

def scalarType (b : Binding) (α : Type) [Element α] : Except Error TypeDef := do
  let t ← b.typeDef
  if t.length ≠ 1 ∨ t.primitive.size ≠ Element.size α then throw b.kindMismatch
  return t

def scalarNull (b : Binding) (α : Type) [Element α] : Except Error α :=
  (b.scalarType α).map fun t => Element.ofScalar t.null

def scalarLeast (b : Binding) (α : Type) [Element α] : Except Error α :=
  (b.scalarType α).map fun t => Element.ofScalar t.least

def scalarGreatest (b : Binding) (α : Type) [Element α] : Except Error α :=
  (b.scalarType α).map fun t => Element.ofScalar t.greatest

def scalar (b : Binding) (α : Type) [Element α] (w : Window) : Except Error α := do
  let t ← b.scalarType α
  match ← b.constant? with
  | some (.scalar value) => return Element.ofScalar value
  | some (.text _) => throw b.kindMismatch
  | none =>
    if b.visible then w.readElement α b.offset
    else return Element.ofScalar t.null

def setScalar {α : Type} [Element α] (b : Binding) (value : α) : Action Window Unit := do
  let t ← b.scalarType α
  match ← b.constant? with
  | some constant =>
    if !constant.matchesValue t.primitive (.scalar (Element.toScalar value)) then
      throw b.constantMismatch
  | none =>
    b.requireVisible
    Window.writeElement b.offset value

def scalar? (b : Binding) (α : Type) [Element α] (w : Window) : Except Error (Option α) := do
  if ← b.present w then return some (← b.scalar α w)
  return none

def setScalar? {α : Type} [Element α] (b : Binding) : Option α → Action Window Unit
  | some value => b.setScalar value
  | none => b.reset

end SimpleBinary.Binding
