import SimpleBinary.Window
import SimpleBinary.Schema.Table

/-!
Fields bound to a place in a window. A field outside the acting version, or inside a composite
outside of it, is not visible: it is absent, and it cannot be reset. Presence and reset of a
composite are those of its first member.
-/

namespace SimpleBinary

structure Binding where
  field : Field
  offset : Nat
  visible : Bool

structure Block where
  base : Nat
  fields : List Field
  visible : Bool

def Field.bindAt (f : Field) (base : Nat) (enclosed : Bool) (version : UInt16) : Binding :=
  ⟨f, wordOf (base + f.offset), enclosed && f.inVersion version⟩

theorem Field.bindAt_wordOf (f : Field) (base : Nat) (enclosed : Bool) (version : UInt16) :
    f.bindAt (wordOf base) enclosed version = f.bindAt base enclosed version := by
  rw [bindAt, bindAt, wordOf_wordOf_add]

namespace Block

def bind (b : Block) (version : UInt16) (f : Field) : Binding :=
  f.bindAt b.base b.visible version

def fieldAt (b : Block) (index : Nat) : Except Error Field :=
  match b.fields[index]? with
  | some f => .ok f
  | none => .error .fieldNotFound

def fieldNamed (b : Block) (name : String) : Except Error Field :=
  match Field.named? b.fields name with
  | some f => .ok f
  | none => .error .fieldNotFound

end Block

namespace Field

def notInVersion (f : Field) (version : UInt16) : Error :=
  .fieldNotInVersion f.name version

def presentAt (w : Window) : Field → Nat → Except Error Bool
  | ⟨_, _, _, kind, presence, _, since⟩, offset =>
    if w.version < since then .ok false
    else if presence ≠ .optional then .ok true
    else match kind with
      | .type t => do
        let value ← w.readScalar offset t.primitive
        return !t.primitive.equal value t.null
      | .enum e => do
        let value ← w.readScalar offset e.encoding
        return value.toUInt64 != e.null
      | .composite ⟨_, first :: _, _⟩ => presentAt w first (wordOf (offset + first.offset))
      | .composite ⟨_, [], _⟩ | .set _ | .group _ | .data _ => .ok true

def resetAt : Field → Nat → Action Window Unit
  | ⟨name, _, _, kind, presence, _, since⟩, offset => do
    let w ← get
    if w.version < since then throw (.fieldNotInVersion name w.version)
    if presence ≠ .optional then throw (.resetNotAllowed name)
    match kind with
    | .type t =>
      discard <| w.check offset t.encodedLength
      -- Elements are counted by the encoded length, which wraps for an array that is long enough.
      let count := t.encodedLength / t.primitive.size
      Window.write offset (List.replicate count (t.primitive.encode t.null)).flatten
    | .enum e => Window.writeScalar offset e.encoding (.uint e.null)
    | .set s => Window.writeScalar offset s.encoding (.uint 0)
    | .composite ⟨_, first :: _, _⟩ => resetAt first (wordOf (offset + first.offset))
    | .composite ⟨_, [], _⟩ => return
    | .group _ | .data _ => throw (.resetNotAllowed name)

end Field

namespace Binding

def kindMismatch (b : Binding) : Error :=
  .kindMismatch b.field.name

def constantMismatch (b : Binding) : Error :=
  .constantMismatch b.field.name

def requireVisible (b : Binding) : Action Window Unit := do
  let w ← get
  if !b.visible then throw (b.field.notInVersion w.version)

def constant? (b : Binding) : Except Error (Option Constant) :=
  if b.field.presence = .constant then
    match b.field.constant with
    | some value => .ok (some value)
    | none => .error b.kindMismatch
  else .ok none

def typeDef (b : Binding) : Except Error TypeDef :=
  match b.field.kind with
  | .type t => .ok t
  | _ => .error b.kindMismatch

def present (b : Binding) (w : Window) : Except Error Bool :=
  if b.visible then b.field.presentAt w b.offset else .ok false

def reset (b : Binding) : Action Window Unit := do
  b.requireVisible
  b.field.resetAt b.offset

end Binding

end SimpleBinary
