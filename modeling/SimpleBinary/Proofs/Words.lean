import SimpleBinary.Message.Basic
import SimpleBinary.Walk

/-!
Reading with words of 64 bits. Lengths, counts and places are added, subtracted and multiplied as a
machine does, and a result that is not a word, a slice past the end of the bytes, and a position
past the limit are faults. A sum that is checked where it is made is an error of the message
instead.
-/

namespace SimpleBinary

/-- What stops a computation with words where one with numbers goes on. -/
inductive Fault where
  | overflow
  | underflow
  | outOfRange
  | pastLimit
  deriving DecidableEq, Repr

abbrev WordAction (σ α : Type) := ExceptT Error (StateT σ (Except Fault)) α

namespace Word

def sum (a b : Nat) : Except Fault Nat :=
  if a + b ≤ Window.maxPosition then .ok (a + b) else .error .overflow

def product (a b : Nat) : Except Fault Nat :=
  if a * b ≤ Window.maxPosition then .ok (a * b) else .error .overflow

def difference (a b : Nat) : Except Fault Nat :=
  if b ≤ a then .ok (a - b) else .error .underflow

def slice (bytes : Bytes) (start stop : Nat) : Except Fault Bytes :=
  if start ≤ stop ∧ stop ≤ bytes.length then .ok (bytes.slice start (stop - start))
  else .error .outOfRange

def check (w : Window) (start size : Nat) : Except Error Nat :=
  if Window.maxPosition < start + size then .error (.bufferTooShort Window.maxPosition w.limit)
  else if start + size ≤ w.limit then .ok (start + size)
  else .error (.bufferTooShort (start + size) w.limit)

def read (start size : Nat) : WordAction Window Bytes := do
  let w ← get
  let stop ← check w start size
  slice w.bytes start stop

def readScalar (start : Nat) (p : Primitive) : WordAction Window Scalar := do
  let bytes ← read start p.size
  return p.decode (← slice bytes 0 p.size)

def advance (size : Nat) : WordAction Window Nat := do
  let w ← get
  let stop ← check w w.position size
  if w.limit < stop then (.error .pastLimit : Except Fault Unit)
  set { w with position := stop }
  return w.position

def bindAt (f : Field) (base : Nat) (enclosed : Bool) : StateT Window (Except Fault) Binding := do
  let w ← get
  return ⟨f, ← sum base f.offset, enclosed && f.inVersion w.version⟩

def presentAt : Field → Nat → WordAction Window Bool
  | ⟨_, _, _, kind, presence, _, since⟩, offset => do
    let w ← get
    if w.version < since then return false
    else if presence ≠ .optional then return true
    else match kind with
      | .type t => do
        let value ← readScalar offset t.primitive
        return !t.primitive.equal value t.null
      | .enum e => do
        let value ← readScalar offset e.encoding
        return value.toUInt64 != e.null
      | .composite ⟨_, first :: _, _⟩ => do
        presentAt first (← sum offset first.offset)
      | .composite ⟨_, [], _⟩ | .set _ | .group _ | .data _ => return true

def present (b : Binding) : WordAction Window Bool :=
  if b.visible then presentAt b.field b.offset else return false

def value (b : Binding) : WordAction Window Value := do
  let t ← b.typeDef
  match ← b.constant? with
  | some constant => return constant.toValue
  | none =>
    if t.length = 1 then
      if b.visible then return .scalar (← readScalar b.offset t.primitive)
      else return .scalar t.null
    else
      let size ← product t.primitive.size t.length
      let bytes ← if b.visible then read b.offset size else pure []
      if t.isText then return .text bytes.untilZero
      else
        let whole ← difference bytes.length (bytes.length % t.primitive.size)
        return .array ⟨t.primitive, ← slice bytes 0 whole⟩

def enumRaw (b : Binding) : WordAction Window UInt64 := do
  let e ← b.enumDef
  match ← b.constantRaw? with
  | some raw => return raw
  | none =>
    if b.visible then return (← readScalar b.offset e.encoding).toUInt64
    else return e.null

def enumName? (b : Binding) : WordAction Window (Option String) := do
  let e ← b.enumDef
  return e.nameOf? (← enumRaw b)

def bits (b : Binding) : WordAction Window BitSet := do
  let s ← b.setDef
  match ← b.constant? with
  | some (.scalar value) => return .ofBits value.toUInt64.toNat s.encoding
  | some (.text _) => throw b.kindMismatch
  | none =>
    if b.visible then return .ofBytes (← read b.offset s.encoding.size) s.encoding
    else return .empty s.encoding

def choices (b : Binding) : WordAction Window (List (String × Bool)) := do
  let s ← b.setDef
  let set ← bits b
  let w ← get
  let known := s.choices.filter fun choice => choice.since ≤ w.version
  return known.map fun choice => (choice.name, set.contains choice.bit)

def bindGroup (field : Field) (definition : GroupDef) (visible : Bool) :
    WordAction Window GroupView := do
  let w ← get
  let start := w.position
  if !visible then
    return ⟨field, definition, start, definition.blockLength, 0, 0, none, visible⟩
  discard <| check w start definition.dimension.encodedLength
  let length := definition.blockLengthMember
  let number := definition.numInGroupMember
  let blockLength ← readScalar (← sum start length.offset) length.primitive
  let count ← readScalar (← sum start number.offset) number.primitive
  discard <| advance definition.dimension.encodedLength
  return ⟨field, definition, start, blockLength.toUInt64.toNat, count.toUInt64.toNat, 0, none,
    visible⟩

def next (view : GroupView) : WordAction Window (Nat × GroupView) := do
  if !view.hasNext then throw (.groupCountExceeded view.name view.count)
  let base ← advance view.blockLength
  return (base, { view with current := some base, index := ← sum view.index 1 })

def length (d : DataView) : WordAction Window Nat := do
  if !d.visible then return 0
  let w ← get
  let member := d.definition.lengthMember
  return (← readScalar (← sum w.position member.offset) member.primitive).toUInt64.toNat

def payload (d : DataView) : WordAction Window (Nat × Nat) := do
  let count ← length d
  let w ← get
  let start ← sum w.position d.headerLength
  if Window.maxPosition < count * d.elementSize then
    throw (.bufferTooShort Window.maxPosition w.limit)
  let size ← product count d.elementSize
  discard <| check w start size
  return (start, size)

def dataValue (d : DataView) : WordAction Window Bytes := do
  if !d.visible then return []
  let (start, size) ← payload d
  discard <| advance (← sum d.headerLength size)
  read start size

def skipData (d : DataView) : WordAction Window Nat := do
  if !d.visible then return 0
  let count ← length d
  let (_, size) ← payload d
  discard <| advance (← sum d.headerLength size)
  return count

def elements (read : Nat → StateT Window (Except Fault) (List Reading)) :
    Nat → GroupView → StateT Window (Except Fault) (List (Except Error (List Reading)))
  | 0, _ => return []
  | n + 1, view => do
    match ← (next view).run with
    | .error reason => return [.error reason]
    | .ok (base, view) =>
      let readings ← read base
      return .ok readings :: (← elements read n view)

def repeatNext (visit : WordAction Window Unit) : Nat → GroupView → WordAction Window Unit
  | 0, _ => return
  | n + 1, view => do
    let (_, view) ← next view
    visit
    repeatNext visit n view

mutual

def walk (base : Nat) (enclosed : Bool) : Field → StateT Window (Except Fault) Reading
  | f@⟨name, _, _, .type _, _, _, _⟩ => do
    let b ← bindAt f base enclosed
    return .type name (← (present b).run) (← (value b).run)
  | f@⟨name, _, _, .enum _, _, _, _⟩ => do
    let b ← bindAt f base enclosed
    return .enum name (← (present b).run) (← (enumRaw b).run) (← (enumName? b).run)
  | f@⟨name, _, _, .set _, _, _, _⟩ => do
    let b ← bindAt f base enclosed
    return .set name (← (present b).run) (← (bits b).run) (← (choices b).run)
  | f@⟨name, _, _, .composite c, _, _, _⟩ => do
    let b ← bindAt f base enclosed
    return .composite name (← (present b).run) (← walkFields b.offset b.visible c.fields)
  | f@⟨name, _, _, .group g, _, _, _⟩ => do
    let b ← bindAt f base enclosed
    match ← (bindGroup f g b.visible).run with
    | .error reason => return .unreachable reason
    | .ok view =>
      let readings ← elements (fun base => walkFields base true g.fields) view.count view
      return .group name view.count view.blockLength readings
  | f@⟨name, _, _, .data d, _, _, _⟩ => do
    let b ← bindAt f base enclosed
    let view : DataView := ⟨f, d, b.visible⟩
    return .data name (← (length view).run) (← (dataValue view).run)

def walkFields (base : Nat) (enclosed : Bool) :
    List Field → StateT Window (Except Fault) (List Reading)
  | [] => return []
  | f :: rest => do
    let reading ← walk base enclosed f
    return reading :: (← walkFields base enclosed rest)

end

mutual

def skip : Field → WordAction Window Unit
  | f@⟨_, _, _, .group g, _, _, _⟩ => do
    let view ← bindGroup f g (f.inVersion (← get).version)
    repeatNext (skipFields g.fields) (← difference view.count view.index) view
  | f@⟨_, _, _, .data d, _, _, _⟩ => do
    discard <| skipData ⟨f, d, f.inVersion (← get).version⟩
  | _ => return

def skipFields : List Field → WordAction Window Unit
  | [] => return
  | f :: rest => do
    skip f
    skipFields rest

end

def wrap (bytes : Bytes) (offset limit blockLength : Nat) (version : UInt16)
    (definition : MessageDef) : Except Fault (Except Error Message) := do
  if Window.maxPosition < offset + blockLength then
    return .error (.bufferTooShort Window.maxPosition limit)
  let stop ← sum offset blockLength
  return do
    let window ← Window.open? bytes limit stop version
    return ⟨window, definition, offset, none, blockLength⟩

def walkMessage (m : Message) : StateT Window (Except Fault) (List Reading) :=
  walkFields m.offset true m.definition.fields

def skipMessage (m : Message) : WordAction Window Nat := do
  let start ← sum m.offset m.blockLength
  let w ← get
  if start ≤ w.limit then set { w with position := start }
  skipFields m.definition.fields
  difference (← get).position m.offset

end Word

end SimpleBinary
