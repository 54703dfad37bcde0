import SimpleBinary.Message.Basic
import SimpleBinary.Proofs.Content
import SimpleBinary.Proofs.Tables

namespace SimpleBinary

def Iteration.storeElements (store : Nat → List FieldContent → Action Window Unit) :
    List (List FieldContent) → Action Iteration Unit
  | [] => return
  | content :: rest => do
    let base ← Iteration.next
    Iteration.onWindow (store base content)
    storeElements store rest

mutual

def Field.store (base : Nat) (enclosed : Bool) : Field → FieldContent → Action Window Unit
  | f@⟨_, _, _, .type _, _, _, _⟩, .value v => do
    (f.bindAt base enclosed (← get).version).setValue v
  | f@⟨_, _, _, .enum _, _, _, _⟩, .raw n => do
    (f.bindAt base enclosed (← get).version).setEnumRaw n
  | f@⟨_, _, _, .set _, _, _, _⟩, .bits set => do
    (f.bindAt base enclosed (← get).version).setBits set
  | f@⟨_, _, _, .composite c, _, _, _⟩, .members contents => do
    let b := f.bindAt base enclosed (← get).version
    storeFields b.offset b.visible c.fields contents
  | f@⟨_, _, _, .group g, _, _, _⟩, .elements contents => do
    let view ← GroupView.bind f g (f.bindAt base enclosed (← get).version).visible
    Iteration.run view do
      Iteration.resetCount contents.length
      Iteration.storeElements (fun base => storeFields base true g.fields) contents
  | f@⟨_, _, _, .data d, _, _, _⟩, .payload bytes => do
    (f.dataView d enclosed (← get).version).setValue bytes
  | _, _ => return

def storeFields (base : Nat) (enclosed : Bool) : List Field → List FieldContent → Action Window Unit
  | f :: rest, content :: contents => do
    f.store base enclosed content
    storeFields base enclosed rest contents
  | _, _ => return

end

namespace Field

variable {f : Field} {base : Nat} {enclosed : Bool} {w : Window}

theorem store_none (f : Field) (w : Window) : f.store base enclosed .none w = (.ok ⟨⟩, w) := by
  obtain ⟨name, id, offset, kind, presence, constant, since⟩ := f
  cases kind <;> rfl

theorem store_type {t : TypeDef} (hk : f.kind = .type t) (v : Value) :
    f.store base enclosed (.value v) w = (f.bindAt base enclosed w.version).setValue v w := by
  obtain ⟨name, id, offset, kind, presence, constant, since⟩ := f
  cases hk
  rfl

theorem store_enum {e : EnumDef} (hk : f.kind = .enum e) (n : UInt64) :
    f.store base enclosed (.raw n) w = (f.bindAt base enclosed w.version).setEnumRaw n w := by
  obtain ⟨name, id, offset, kind, presence, constant, since⟩ := f
  cases hk
  rfl

theorem store_set {s : SetDef} (hk : f.kind = .set s) (set : BitSet) :
    f.store base enclosed (.bits set) w = (f.bindAt base enclosed w.version).setBits set w := by
  obtain ⟨name, id, offset, kind, presence, constant, since⟩ := f
  cases hk
  rfl

theorem store_composite {c : CompositeDef} (hk : f.kind = .composite c)
    (contents : List FieldContent) :
    f.store base enclosed (.members contents) w =
      storeFields (wordOf (base + f.offset)) (enclosed && f.inVersion w.version) c.fields
        contents w := by
  obtain ⟨name, id, offset, kind, presence, constant, since⟩ := f
  cases hk
  rfl

theorem store_group {g : GroupDef} (hk : f.kind = .group g) {view : GroupView} {v : Window}
    (hb : GroupView.bind f g (enclosed && f.inVersion w.version) w = (.ok view, v))
    (contents : List (List FieldContent)) :
    f.store base enclosed (.elements contents) w =
      (Iteration.run view do
        Iteration.resetCount contents.length
        Iteration.storeElements (fun base => storeFields base true g.fields) contents) v := by
  obtain ⟨name, id, offset, kind, presence, constant, since⟩ := f
  cases hk
  simp only [store, bindAt, Action.bind_apply, Action.get_apply, hb]

theorem store_data {d : DataDef} (hk : f.kind = .data d) (bytes : Bytes) :
    f.store base enclosed (.payload bytes) w =
      (f.dataView d enclosed w.version).setValue bytes w := by
  obtain ⟨name, id, offset, kind, presence, constant, since⟩ := f
  cases hk
  rfl

end Field

def Block.store (b : Block) (contents : List FieldContent) : Action Window Unit :=
  storeFields b.base b.visible b.fields contents

def Message.store (offset limit : Nat) (definition : MessageDef) (contents : List FieldContent) :
    Action Bytes Nat := do
  let m ← writeFrame offset limit definition
  Action.onPart (fun bytes => { m with window := { m.window with bytes } })
    (fun m _ => m.window.bytes) do
      onWindow (m.body.store contents)
      return (← get).position

end SimpleBinary
