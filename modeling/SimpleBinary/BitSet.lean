import SimpleBinary.Window

namespace SimpleBinary

open scoped Power

structure BitSet where
  encoding : Primitive
  bits : Nat
  bits_lt : bits < 2 ^ encoding.width
  deriving DecidableEq

namespace BitSet

def empty (encoding : Primitive) : BitSet :=
  ⟨encoding, 0, Nat.two_pow_pos _⟩

def ofBits (bits : Nat) (encoding : Primitive) : BitSet :=
  ⟨encoding, bits % 2 ^ encoding.width, Nat.mod_lt _ (Nat.two_pow_pos _)⟩

def width (s : BitSet) : Nat :=
  s.encoding.width

def contains (s : BitSet) (bit : Nat) : Bool :=
  s.bits.testBit bit

def toList (s : BitSet) : List Nat :=
  (List.range s.width).filter s.contains

def ones : Nat → Nat → Nat
  | 0, _ => 0
  | width + 1, bits => bits % 2 + ones width (bits / 2)

def size (s : BitSet) : Nat :=
  ones 64 s.bits

def isEmpty (s : BitSet) : Bool :=
  s.bits == 0

def checkBit (s : BitSet) (bit : Nat) : Except Error Unit :=
  if bit < s.width then .ok () else .error (.bitOutOfRange bit s.width)

def assign (s : BitSet) (bit : Nat) (on : Bool) : BitSet :=
  if h : bit < s.width then
    if s.contains bit = on then s
    else ⟨s.encoding, s.bits ^^^ 2 ^ bit,
      Nat.xor_lt_two_pow s.bits_lt (Nat.pow_lt_pow_right (by decide) h)⟩
  else s

def with? (s : BitSet) (bit : Nat) (on : Bool) : Except Error BitSet :=
  (s.checkBit bit).map fun _ => s.assign bit on

def insert? (s : BitSet) (bit : Nat) : Except Error BitSet :=
  s.with? bit true

def erase? (s : BitSet) (bit : Nat) : Except Error BitSet :=
  s.with? bit false

def clear (s : BitSet) : BitSet :=
  empty s.encoding

def toBytes (s : BitSet) : Bytes :=
  s.encoding.encode (.uint (UInt64.ofNat s.bits))

def ofBytes (bytes : Bytes) (encoding : Primitive) : BitSet :=
  ofBits (encoding.decode bytes).toUInt64.toNat encoding

def write (s : BitSet) : Action Bytes Nat := do
  let bytes ← get
  let size := s.encoding.size
  if bytes.length < size then throw (.bufferTooShort size bytes.length)
  set (bytes.overwrite 0 s.toBytes)
  return size

def read (bytes : Bytes) (encoding : Primitive) : Except Error (BitSet × Nat) :=
  if bytes.length < encoding.size then .error (.bufferTooShort encoding.size bytes.length)
  else .ok (ofBytes bytes encoding, encoding.size)

theorem contains_ofBits (bits : Nat) (encoding : Primitive) (bit : Nat) :
    (ofBits bits encoding).contains bit = (decide (bit < encoding.width) && bits.testBit bit) :=
  Nat.testBit_mod_two_pow _ _ _

theorem contains_eq_false {s : BitSet} {bit : Nat} (h : s.width ≤ bit) : s.contains bit = false :=
  Nat.testBit_lt_two_pow (Nat.lt_of_lt_of_le s.bits_lt (Nat.pow_le_pow_right (by decide) h))

theorem mem_toList {s : BitSet} {bit : Nat} : bit ∈ s.toList ↔ s.contains bit = true := by
  simp only [toList, List.mem_filter, List.mem_range]
  constructor
  · exact fun h => h.2
  · intro h
    refine ⟨?_, h⟩
    apply Nat.lt_of_not_le
    intro hle
    rw [contains_eq_false hle] at h
    exact absurd h (by decide)

end BitSet

end SimpleBinary
