/-!
Byte strings, and the little-endian numerals written in them. The main statements say that a part
written into a string is read back from it, and that a numeral of `size` bytes holds exactly the
numbers below `256 ^ size`.
-/

namespace SimpleBinary

namespace Power

-- Powers with a natural exponent are those of the core library where there is another instance.
scoped instance (priority := high) ofNatPow {α : Type} [NatPow α] : Pow α Nat := instPowNat

end Power

abbrev Bytes := List UInt8

/-- A size or an offset as a word: what a sum or a product has above 64 bits is lost. -/
def wordOf (n : Nat) : Nat :=
  n % UInt64.size

theorem wordOf_of_lt {n : Nat} (h : n < UInt64.size) : wordOf n = n :=
  Nat.mod_eq_of_lt h

theorem wordOf_lt (n : Nat) : wordOf n < UInt64.size :=
  Nat.mod_lt n (by decide)

theorem wordOf_le (n : Nat) : wordOf n ≤ n :=
  Nat.mod_le n _

theorem wordOf_wordOf_add (n k : Nat) : wordOf (wordOf n + k) = wordOf (n + k) :=
  Nat.mod_add_mod n UInt64.size k

namespace Bytes

def slice (bytes : Bytes) (start size : Nat) : Bytes :=
  (bytes.drop start).take size

def overwrite (bytes : Bytes) (start : Nat) (part : Bytes) : Bytes :=
  bytes.take start ++ part ++ bytes.drop (start + part.length)

def pieces (size : Nat) : Nat → Bytes → List Bytes
  | 0, _ => []
  | count + 1, bytes => bytes.take size :: pieces size count (bytes.drop size)

def untilZero (bytes : Bytes) : Bytes :=
  bytes.takeWhile (· != 0)

def padded (bytes : Bytes) (size : Nat) : Bytes :=
  bytes ++ List.replicate (size - bytes.length) 0

theorem length_overwrite {bytes part : Bytes} {start : Nat}
    (h : start + part.length ≤ bytes.length) :
    (overwrite bytes start part).length = bytes.length := by
  simp only [overwrite, List.length_append, List.length_take, List.length_drop]
  omega

theorem slice_overwrite {bytes part : Bytes} {start : Nat} (h : start ≤ bytes.length) :
    slice (overwrite bytes start part) start part.length = part := by
  have hl : (bytes.take start).length = start := by simp [h]
  unfold slice overwrite
  rw [List.append_assoc, List.drop_left' hl, List.take_left]

theorem length_padded {bytes : Bytes} {size : Nat} (h : bytes.length ≤ size) :
    (padded bytes size).length = size := by
  simp only [padded, List.length_append, List.length_replicate]
  omega

end Bytes

namespace LittleEndian

open scoped Power

def encode : Nat → Nat → Bytes
  | 0, _ => []
  | size + 1, n => UInt8.ofNat n :: encode size (n / 256)

def decode : Bytes → Nat
  | [] => 0
  | byte :: rest => byte.toNat + 256 * decode rest

@[simp] theorem length_encode (size n : Nat) : (encode size n).length = size := by
  induction size generalizing n with
  | zero => rfl
  | succ size ih => simp [encode, ih]

theorem decode_encode (size n : Nat) : decode (encode size n) = n % 256 ^ size := by
  induction size generalizing n with
  | zero => simp [encode, decode, Nat.mod_one]
  | succ size ih =>
    have hhead : (UInt8.ofNat n).toNat = n % 256 := by simp
    rw [encode, decode, ih, hhead, Nat.pow_succ, Nat.mul_comm (256 ^ size) 256, Nat.mod_mul]

theorem decode_lt (bytes : Bytes) : decode bytes < 256 ^ bytes.length := by
  induction bytes with
  | nil => simp [decode]
  | cons byte rest ih =>
    have := byte.toNat_lt
    simp only [decode, List.length_cons, Nat.pow_succ]
    omega

theorem encode_decode (bytes : Bytes) : encode bytes.length (decode bytes) = bytes := by
  induction bytes with
  | nil => rfl
  | cons byte rest ih =>
    have hb := byte.toNat_lt
    have hdiv : (byte.toNat + 256 * decode rest) / 256 = decode rest := by omega
    have hhead : UInt8.ofNat (byte.toNat + 256 * decode rest) = byte := by
      apply UInt8.toNat_inj.1
      simp only [UInt8.toNat_ofNat']
      omega
    simp only [List.length_cons, encode, decode, hdiv, hhead, ih]

end LittleEndian

end SimpleBinary
