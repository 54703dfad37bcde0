import SimpleBinary.Element
import SimpleBinary.Error

/-!
A window on a byte string: its first `limit` bytes may be read and written, and one position runs
through them. Every access is checked against the limit. An action keeps what it did to the state
before it failed.
-/

namespace SimpleBinary

/-- A computation on a state that a failure does not undo. -/
abbrev Action (σ α : Type) := ExceptT Error (StateM σ) α

namespace Action

variable {σ τ α : Type}

def query (look : σ → Except Error α) : Action σ α :=
  fun state => (look state, state)

def complete (action : Action σ α) (state : σ) : Except Error (α × σ) :=
  let (result, after) := action state
  result.map (·, after)

def onPart (get : σ → τ) (set : τ → σ → σ) (action : Action τ α) : Action σ α :=
  fun state =>
    let (result, part) := action (get state)
    (result, set part state)

end Action

/-- The greatest word. A checked sum past it counts as this one. -/
def Window.maxPosition : Nat := UInt64.size - 1

structure Window where
  bytes : Bytes
  limit : Nat
  position : Nat
  version : UInt16
  limit_le_max : limit ≤ Window.maxPosition
  deriving DecidableEq

namespace Window

def open? (bytes : Bytes) (limit position : Nat) (version : UInt16) : Except Error Window :=
  -- No byte string is as long as the greatest word.
  if h : min bytes.length maxPosition < limit then
    .error (.bufferTooShort limit (min bytes.length maxPosition))
  else if limit < position then .error (.bufferTooShort position limit)
  else .ok ⟨bytes, limit, position, version,
    Nat.le_trans (Nat.le_of_not_lt h) (Nat.min_le_right _ _)⟩

def remaining (w : Window) : Nat :=
  w.limit - w.position

def check (w : Window) (start size : Nat) : Except Error Nat :=
  if start + size ≤ w.limit then .ok (start + size)
  else .error (.bufferTooShort (min (start + size) maxPosition) w.limit)

def read (w : Window) (start size : Nat) : Except Error Bytes :=
  (w.check start size).map fun _ => w.bytes.slice start size

def readScalar (w : Window) (start : Nat) (p : Primitive) : Except Error Scalar :=
  (w.read start p.size).map p.decode

def readElement (w : Window) (α : Type) [Element α] (start : Nat) : Except Error α :=
  (w.read start (Element.size α)).map Element.decode

def advance (size : Nat) : Action Window Nat := do
  let w ← get
  let stop ← w.check w.position size
  set { w with position := stop }
  return w.position

def seek (position : Nat) : Action Window Unit := do
  let w ← get
  let stop ← w.check position 0
  set { w with position := stop }

def write (start : Nat) (part : Bytes) : Action Window Unit := do
  let w ← get
  discard <| w.check start part.length
  set { w with bytes := w.bytes.overwrite start part }

def writeScalar (start : Nat) (p : Primitive) (value : Scalar) : Action Window Unit :=
  write start (p.encode value)

def writeElement {α : Type} [Element α] (start : Nat) (value : α) : Action Window Unit :=
  write start (Element.encode value)

end Window

end SimpleBinary
