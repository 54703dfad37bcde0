import SimpleBinary.Field.Dynamic
import SimpleBinary.Field.Enumeration
import SimpleBinary.Field.Choices
import SimpleBinary.Message.Basic

/-!
Reading every field of a table in wire order. The walk goes on after an error and keeps it in the
place of what could not be read.
-/

namespace SimpleBinary

inductive Reading where
  | unreachable (reason : Error)
  | type (name : String) (present : Except Error Bool) (value : Except Error Value)
  | enum (name : String) (present : Except Error Bool) (raw : Except Error UInt64)
    (symbol : Except Error (Option String))
  | set (name : String) (present : Except Error Bool) (bits : Except Error BitSet)
    (choices : Except Error (List (String × Bool)))
  | composite (name : String) (present : Except Error Bool) (members : List Reading)
  | group (name : String) (count blockLength : Nat) (elements : List (Except Error (List Reading)))
  | data (name : String) (length : Except Error Nat) (value : Except Error Bytes)

namespace Walk

def elements (read : Nat → StateM Window (List Reading)) :
    Nat → StateM Iteration (List (Except Error (List Reading)))
  | 0 => return []
  | n + 1 => do
    match ← Iteration.next.run with
    -- An element that could not be visited is the last one.
    | .error reason => return [.error reason]
    | .ok base =>
      let it ← get
      let (readings, window) := read base it.window
      set { it with window }
      return .ok readings :: (← elements read n)

end Walk

mutual

def Field.walk (base : Nat) (enclosed : Bool) : Field → StateM Window Reading
  | f@⟨name, _, _, .type _, _, _, _⟩ => do
    let w ← get
    let b := f.bindAt base enclosed w.version
    return .type name (b.present w) (b.value w)
  | f@⟨name, _, _, .enum _, _, _, _⟩ => do
    let w ← get
    let b := f.bindAt base enclosed w.version
    return .enum name (b.present w) (b.enumRaw w) (b.enumName? w)
  | f@⟨name, _, _, .set _, _, _, _⟩ => do
    let w ← get
    let b := f.bindAt base enclosed w.version
    return .set name (b.present w) (b.bits w) (b.choices w)
  | f@⟨name, _, _, .composite c, _, _, _⟩ => do
    let w ← get
    let b := f.bindAt base enclosed w.version
    return .composite name (b.present w) (← walkFields b.offset b.visible c.fields)
  | f@⟨name, _, _, .group g, _, _, _⟩ => do
    let b := f.bindAt base enclosed (← get).version
    match ← (GroupView.bind f g b.visible).run with
    | .error reason => return .unreachable reason
    | .ok view =>
      let read := Walk.elements (fun base => walkFields base true g.fields) view.count
      let (readings, it) := read ⟨view, ← get⟩
      set it.window
      return .group name view.count view.blockLength readings
  | f@⟨name, _, _, .data d, _, _, _⟩ => do
    let w ← get
    let view : DataView := ⟨f, d, (f.bindAt base enclosed w.version).visible⟩
    return .data name (view.length w) (← view.value.run)

def walkFields (base : Nat) (enclosed : Bool) : List Field → StateM Window (List Reading)
  | [] => return []
  | f :: rest => do
    let reading ← f.walk base enclosed
    return reading :: (← walkFields base enclosed rest)

end

def Block.walk (b : Block) : StateM Window (List Reading) :=
  walkFields b.base b.visible b.fields

end SimpleBinary
