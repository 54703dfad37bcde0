import SimpleBinary.Field.Composite
import SimpleBinary.Field.Group
import SimpleBinary.Field.Data

namespace SimpleBinary

inductive Entry where
  | type (binding : Binding)
  | enum (binding : Binding)
  | set (binding : Binding)
  | composite (view : CompositeView)
  | group (view : GroupView)
  | data (view : DataView)

namespace Entry

def field : Entry → Field
  | type b | enum b | set b => b.field
  | composite c => c.binding.field
  | group g => g.field
  | data d => d.field

def name (e : Entry) : String :=
  e.field.name

def kindName : Entry → String
  | type _ => "type"
  | enum _ => "enum"
  | set _ => "set"
  | composite _ => "composite"
  | group _ => "group"
  | data _ => "data"

end Entry

def Binding.entry (b : Binding) : Action Window Entry :=
  match b.field.kind with
  | .type _ => return .type b
  | .enum _ => return .enum b
  | .set _ => return .set b
  | .composite c => return .composite ⟨b, c⟩
  | .group g => return .group (← GroupView.bind b.field g b.visible)
  | .data d => return .data ⟨b.field, d, b.visible⟩

namespace Block

def entry (b : Block) (f : Field) : Action Window Entry := do
  (b.bind (← get).version f).entry

def entryAt (b : Block) (index : Nat) : Action Window Entry := do
  b.entry (← b.fieldAt index)

def entryNamed (b : Block) (name : String) : Action Window Entry := do
  b.entry (← b.fieldNamed name)

end Block

namespace GroupView

def entryAt (g : GroupView) (index : Nat) : Action Window Entry := do
  (← g.element).entryAt index

def entryNamed (g : GroupView) (name : String) : Action Window Entry := do
  (← g.element).entryNamed name

end GroupView

end SimpleBinary
