import SimpleBinary.Field.Binding

namespace SimpleBinary

structure CompositeView where
  binding : Binding
  definition : CompositeDef

namespace CompositeView

def ofBinding (b : Binding) : Except Error CompositeView :=
  match b.field.kind with
  | .composite c => .ok ⟨b, c⟩
  | _ => .error b.kindMismatch

def members (c : CompositeView) : Block :=
  ⟨c.binding.offset, c.definition.fields, c.binding.visible⟩

def present (c : CompositeView) (w : Window) : Except Error Bool :=
  c.binding.present w

def reset (c : CompositeView) : Action Window Unit :=
  c.binding.reset

end CompositeView

end SimpleBinary
