import SimpleBinary.Field.Binding

/-!
Repeating groups. A group starts at the position of the window with a dimension header, and its
elements follow, each as long as the header says. Binding the group moves the position over the
header, and visiting an element moves it over the fixed part of the element. A group that is not
visible has no elements and takes no bytes.
-/

namespace SimpleBinary

structure GroupView where
  field : Field
  definition : GroupDef
  headerOffset : Nat
  blockLength : Nat
  count : Nat
  index : Nat
  /-- Where the element visited last begins. -/
  current : Option Nat
  visible : Bool

structure Iteration where
  group : GroupView
  window : Window

namespace GroupView

def bind (field : Field) (definition : GroupDef) (visible : Bool) : Action Window GroupView := do
  let w ← get
  let start := w.position
  if !visible then
    return ⟨field, definition, start, definition.blockLength, 0, 0, none, visible⟩
  discard <| w.check start definition.dimension.encodedLength
  let length := definition.blockLengthMember
  let number := definition.numInGroupMember
  let blockLength ← w.readScalar (wordOf (start + length.offset)) length.primitive
  let count ← w.readScalar (wordOf (start + number.offset)) number.primitive
  discard <| Window.advance definition.dimension.encodedLength
  return ⟨field, definition, start, blockLength.toUInt64.toNat, count.toUInt64.toNat, 0, none,
    visible⟩

def ofBinding (b : Binding) : Action Window GroupView :=
  match b.field.kind with
  | .group g => bind b.field g b.visible
  | _ => throw b.kindMismatch

def name (g : GroupView) : String :=
  g.field.name

def remaining (g : GroupView) : Nat :=
  g.count - g.index

def hasNext (g : GroupView) : Bool :=
  g.index < g.count

def element (g : GroupView) : Except Error Block :=
  match g.current with
  | some base => .ok ⟨base, g.definition.fields, true⟩
  | none => .error (.noCurrentElement g.name)

end GroupView

namespace Iteration

def onWindow {α : Type} (action : Action Window α) : Action Iteration α :=
  Action.onPart window (fun w it => { it with window := w }) action

def run {α : Type} (group : GroupView) (action : Action Iteration α) : Action Window α :=
  fun w =>
    let (result, it) := action ⟨group, w⟩
    (result, it.window)

def bind (it : Iteration) (f : Field) : Except Error Binding :=
  it.group.element.map fun element => element.bind it.window.version f

def onField {α : Type} (f : Field) (action : Binding → Action Window α) : Action Iteration α := do
  let b ← (← get).bind f
  onWindow (action b)

def next : Action Iteration Nat := do
  let g := (← get).group
  if !g.hasNext then throw (.groupCountExceeded g.name g.count)
  let base ← onWindow (Window.advance g.blockLength)
  modify fun it => { it with group := { g with current := some base, index := g.index + 1 } }
  return base

def visited (group : GroupView) : Action Window GroupView :=
  run group do
    discard next
    return (← get).group

def resetCount (count : Nat) : Action Iteration Unit := do
  let it ← get
  let g := it.group
  if !g.visible then throw (g.field.notInVersion it.window.version)
  if 0 < g.index then throw (.iterationStarted g.name)
  let length := g.definition.blockLengthMember
  let number := g.definition.numInGroupMember
  if number.primitive.rawMax < count then throw (.countOverflow g.name count)
  -- The count fits its member; the block length is cut to the width of its own.
  onWindow do
    Window.writeScalar (wordOf (g.headerOffset + length.offset)) length.primitive
      (.uint (UInt64.ofNat g.definition.blockLength))
    Window.writeScalar (wordOf (g.headerOffset + number.offset)) number.primitive
      (.uint (UInt64.ofNat count))
  modify fun it => { it with
    group := { g with blockLength := g.definition.blockLength, count, current := none } }

def repeatNext (visit : Nat → Action Window Unit) : Nat → Action Iteration Unit
  | 0 => return
  | n + 1 => do
    let base ← next
    onWindow (visit base)
    repeatNext visit n

def forRemaining (visit : Nat → Action Window Unit) : Action Iteration Unit := do
  repeatNext visit (← get).group.remaining

end Iteration

end SimpleBinary
