import SimpleBinary.Field.Binding
import SimpleBinary.BitSet

namespace SimpleBinary.Binding

def setDef (b : Binding) : Except Error SetDef :=
  match b.field.kind with
  | .set s => .ok s
  | _ => .error b.kindMismatch

def choiceNamed (b : Binding) (name : String) : Except Error Choice := do
  match (← b.setDef).choice? name with
  | some choice => return choice
  | none => throw .fieldNotFound

def bits (b : Binding) (w : Window) : Except Error BitSet := do
  let s ← b.setDef
  match ← b.constant? with
  | some (.scalar value) => return .ofBits value.toUInt64.toNat s.encoding
  | some (.text _) => throw b.kindMismatch
  | none =>
    if b.visible then return .ofBytes (← w.read b.offset s.encoding.size) s.encoding
    else return .empty s.encoding

def testBit (b : Binding) (bit : Nat) (w : Window) : Except Error Bool := do
  let set ← b.bits w
  set.checkBit bit
  return set.contains bit

def testChoice (b : Binding) (name : String) (w : Window) : Except Error Bool := do
  b.testBit (← b.choiceNamed name).bit w

def choices (b : Binding) (w : Window) : Except Error (List (String × Bool)) := do
  let s ← b.setDef
  let set ← b.bits w
  let known := s.choices.filter fun choice => choice.since ≤ w.version
  return known.map fun choice => (choice.name, set.contains choice.bit)

/-- Stores a set, cut to the width of the encoding. A field with a number for its constant takes
that number only. -/
def setBits (b : Binding) (set : BitSet) : Action Window Unit := do
  let s ← b.setDef
  match ← b.constant? with
  | some (.scalar value) => if value.toUInt64.toNat ≠ set.bits then throw b.constantMismatch
  -- A text for a constant is passed over.
  | _ =>
    b.requireVisible
    Window.write b.offset (BitSet.ofBits set.bits s.encoding).toBytes

def setBit (b : Binding) (bit : Nat) (on : Bool) : Action Window Unit := do
  let set ← Action.query b.bits
  b.setBits (← set.with? bit on)

def setChoice (b : Binding) (name : String) (on : Bool) : Action Window Unit := do
  b.setBit (← b.choiceNamed name).bit on

end SimpleBinary.Binding
