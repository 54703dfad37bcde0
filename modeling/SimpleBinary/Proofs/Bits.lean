import SimpleBinary.BitSet
import SimpleBinary.Proofs.Decoding
import SimpleBinary.Proofs.Slice

namespace SimpleBinary

open scoped Power

namespace Bytes

def bit (bytes : Bytes) (n : Nat) : Bool :=
  (bytes.getD (n / 8) 0).toNat.testBit (n % 8)

variable {bytes part : Bytes} {start size n : Nat}

theorem bit_eq_of_getElem? {bytes' : Bytes} {n' : Nat} (h : bytes[n / 8]? = bytes'[n' / 8]?)
    (hn : n % 8 = n' % 8) : bytes.bit n = bytes'.bit n' := by
  rw [bit, bit, List.getD_eq_getElem?_getD, List.getD_eq_getElem?_getD, h, hn]

theorem bit_eq_false (h : 8 * bytes.length ≤ n) : bytes.bit n = false := by
  have hend : bytes.length ≤ n / 8 := by omega
  rw [bit, List.getD_eq_getElem?_getD, List.getElem?_eq_none hend]
  exact Nat.zero_testBit _

theorem bit_slice (bytes : Bytes) (start size n : Nat) :
    (bytes.slice start size).bit n = (decide (n < 8 * size) && bytes.bit (8 * start + n)) := by
  by_cases hn : n < 8 * size
  · rw [decide_eq_true hn, Bool.true_and]
    apply bit_eq_of_getElem?
    · rw [getElem?_slice, if_pos (by omega), Nat.mul_add_div (by decide)]
    · rw [Nat.mul_add_mod]
  · have hlength : (bytes.slice start size).length ≤ size := List.length_take_le _ _
    rw [decide_eq_false hn, Bool.false_and, bit_eq_false (by omega)]

theorem bit_overwrite (h : start + part.length ≤ bytes.length) (n : Nat) :
    (bytes.overwrite start part).bit n =
      if 8 * start ≤ n ∧ n < 8 * start + 8 * part.length then part.bit (n - 8 * start)
      else bytes.bit n := by
  by_cases hn : 8 * start ≤ n ∧ n < 8 * start + 8 * part.length
  · rw [if_pos hn]
    apply bit_eq_of_getElem?
    · rw [getElem?_overwrite h, if_neg (by omega)]
      congr 1
      omega
    · omega
  · rw [if_neg hn]
    apply bit_eq_of_getElem?
    · rw [getElem?_overwrite h, if_pos (by omega)]
    · rfl

theorem getElem?_eq_of_bit {bytes' : Bytes} {i : Nat} (hlength : bytes'.length = bytes.length)
    (h : ∀ m < 8, bytes'.bit (8 * i + m) = bytes.bit (8 * i + m)) : bytes'[i]? = bytes[i]? := by
  by_cases hi : i < bytes.length
  · have hbyte : bytes'.getD i 0 = bytes.getD i 0 := by
      apply UInt8.toNat_inj.mp
      apply Nat.eq_of_testBit_eq
      intro m
      by_cases hm : m < 8
      · have hbit := h m hm
        rw [bit, bit, Nat.mul_add_div (by decide), Nat.mul_add_mod, Nat.div_eq_of_lt hm,
          Nat.mod_eq_of_lt hm] at hbit
        exact hbit
      · have hpow : 2 ^ 8 ≤ 2 ^ m := Nat.pow_le_pow_right (by decide) (Nat.le_of_not_lt hm)
        rw [Nat.testBit_lt_two_pow (Nat.lt_of_lt_of_le (UInt8.toNat_lt _) hpow),
          Nat.testBit_lt_two_pow (Nat.lt_of_lt_of_le (UInt8.toNat_lt _) hpow)]
    have hi' : i < bytes'.length := hlength ▸ hi
    rw [List.getD_eq_getElem?_getD, List.getD_eq_getElem?_getD, List.getElem?_eq_getElem hi',
      List.getElem?_eq_getElem hi, Option.getD_some, Option.getD_some] at hbyte
    rw [List.getElem?_eq_getElem hi', List.getElem?_eq_getElem hi, hbyte]
  · have hend : bytes.length ≤ i := Nat.le_of_not_lt hi
    rw [List.getElem?_eq_none hend, List.getElem?_eq_none (hlength ▸ hend)]

end Bytes

namespace LittleEndian

theorem testBit_decode (bytes : Bytes) (n : Nat) : (decode bytes).testBit n = bytes.bit n := by
  induction bytes generalizing n with
  | nil => rw [decode, Nat.zero_testBit, Bytes.bit_eq_false (Nat.zero_le _)]
  | cons byte rest ih =>
    have hsum : decode (byte :: rest) = 2 ^ 8 * decode rest + byte.toNat := Nat.add_comm _ _
    rw [hsum, Nat.testBit_two_pow_mul_add _ byte.toNat_lt]
    by_cases hn : n < 8
    · rw [if_pos hn, Bytes.bit, Nat.div_eq_of_lt hn, Nat.mod_eq_of_lt hn]
      rfl
    · obtain ⟨m, rfl⟩ := Nat.exists_eq_add_of_le (Nat.le_of_not_lt hn)
      rw [if_neg hn, Nat.add_sub_cancel_left, ih]
      apply Bytes.bit_eq_of_getElem?
      · rw [Nat.add_div_left m (by decide), List.getElem?_cons_succ]
      · rw [Nat.add_mod_left]

theorem bit_encode (size m n : Nat) :
    (encode size m).bit n = (decide (n < 8 * size) && m.testBit n) := by
  have hpow : 256 ^ size = 2 ^ (8 * size) := by rw [Nat.pow_mul]
  rw [← testBit_decode, decode_encode, hpow, Nat.testBit_mod_two_pow]

end LittleEndian

namespace Primitive

variable {p : Primitive}

theorem toRaw_ofRaw_eq (hp : p.isFloat = false) (raw : Nat) :
    p.toRaw (p.ofRaw raw) = (p.ofRaw raw).toUInt64.toNat := by
  cases p with
  | float | double => cases hp
  | _ => rfl

theorem bit_encode_uint (hp : p.isFloat = false) (value : UInt64) (n : Nat) :
    (p.encode (.uint value)).bit n = (decide (n < p.width) && value.toNat.testBit n) := by
  rw [encode, LittleEndian.bit_encode, toRaw_uint hp]
  rfl

theorem testBit_toUInt64_decode (hp : p.isFloat = false) (bytes : Bytes) {n : Nat}
    (hn : n < p.width) : (p.decode bytes).toUInt64.toNat.testBit n = bytes.bit n := by
  have hraw := toRaw_ofRaw hp (p.decode_take_lt bytes)
  rw [toRaw_ofRaw_eq hp] at hraw
  have hslice : bytes.take p.size = bytes.slice 0 p.size := rfl
  calc (p.decode bytes).toUInt64.toNat.testBit n
      = ((p.decode bytes).toUInt64.toNat % 2 ^ p.width).testBit n := by
        rw [Nat.testBit_mod_two_pow, decide_eq_true hn, Bool.true_and]
    _ = (LittleEndian.decode (bytes.take p.size)).testBit n := by rw [decode, hraw]
    _ = bytes.bit n := by
        have hlt : n < 8 * p.size := hn
        rw [LittleEndian.testBit_decode, hslice, Bytes.bit_slice, decide_eq_true hlt, Bool.true_and,
          Nat.mul_zero, Nat.zero_add]

end Primitive

namespace BitSet

variable {set set' : BitSet} {bit : Nat}

theorem eq_of_contains (he : set.encoding = set'.encoding)
    (h : ∀ bit, set.contains bit = set'.contains bit) : set = set' := by
  obtain ⟨encoding, bits, hbits⟩ := set
  obtain ⟨encoding', bits', hbits'⟩ := set'
  obtain rfl : encoding = encoding' := he
  obtain rfl : bits = bits' := Nat.eq_of_testBit_eq h
  rfl

theorem lt_of_contains (h : set.contains bit) : bit < set.encoding.width := by
  apply Nat.lt_of_not_le
  intro hle
  rw [contains_eq_false hle] at h
  cases h

theorem contains_empty (encoding : Primitive) (bit : Nat) :
    (empty encoding).contains bit = false :=
  Nat.zero_testBit bit

theorem contains_assign (hb : bit < set.width) (on : Bool) (other : Nat) :
    (set.assign bit on).contains other = if other = bit then on else set.contains other := by
  unfold assign
  rw [dif_pos hb]
  by_cases hon : set.contains bit = on
  · rw [if_pos hon]
    split
    next heq => rw [heq, hon]
    next => rfl
  · rw [if_neg hon]
    have hflip : (!set.bits.testBit bit) = on := Bool.not_eq_eq_eq_not.mpr (Bool.eq_not.mpr hon)
    simp only [contains, Nat.testBit_xor, Nat.testBit_two_pow]
    split
    next heq => rw [heq, decide_eq_true rfl, Bool.xor_true, hflip]
    next hne => rw [decide_eq_false (Ne.symm hne), Bool.xor_false]

theorem assign_of_le (h : set.width ≤ bit) (on : Bool) : set.assign bit on = set :=
  dif_neg (Nat.not_lt.mpr h)

theorem encoding_assign (set : BitSet) (bit : Nat) (on : Bool) :
    (set.assign bit on).encoding = set.encoding := by
  unfold assign
  split
  · split
    · rfl
    · rfl
  · rfl

theorem with?_of_lt (h : bit < set.width) (on : Bool) :
    set.with? bit on = .ok (set.assign bit on) := by
  simp only [with?, checkBit, h, if_true, Except.map]

theorem with?_of_le (h : set.width ≤ bit) (on : Bool) :
    set.with? bit on = .error (.bitOutOfRange bit set.width) := by
  simp only [with?, checkBit, Nat.not_lt.mpr h, if_false, Except.map]

theorem contains_ofBytes {p : Primitive} (hp : p.isFloat = false) (bytes : Bytes) (bit : Nat) :
    (ofBytes bytes p).contains bit = (decide (bit < p.width) && bytes.bit bit) := by
  rw [ofBytes, contains_ofBits]
  by_cases hb : bit < p.width
  · rw [Primitive.testBit_toUInt64_decode hp bytes hb]
  · rw [decide_eq_false hb, Bool.false_and, Bool.false_and]

theorem bit_toBytes (hp : set.encoding.isFloat = false) (bit : Nat) :
    set.toBytes.bit bit = set.contains bit := by
  have hword : set.bits < 2 ^ 64 :=
    Nat.lt_of_lt_of_le set.bits_lt
      (Nat.pow_le_pow_right (by decide) set.encoding.width_le)
  rw [toBytes, Primitive.bit_encode_uint hp, UInt64.toNat_ofNat_of_lt' hword]
  by_cases hb : bit < set.encoding.width
  · rw [decide_eq_true hb, Bool.true_and, contains]
  · rw [decide_eq_false hb, Bool.false_and, contains_eq_false (Nat.le_of_not_lt hb)]

theorem ofBytes_toBytes (hp : set.encoding.isFloat = false) :
    ofBytes set.toBytes set.encoding = set := by
  have he : (ofBytes set.toBytes set.encoding).encoding = set.encoding := rfl
  apply eq_of_contains he
  intro bit
  rw [contains_ofBytes hp, bit_toBytes hp]
  by_cases hb : bit < set.encoding.width
  · rw [decide_eq_true hb, Bool.true_and]
  · rw [decide_eq_false hb, Bool.false_and, contains_eq_false (Nat.le_of_not_lt hb)]

theorem length_toBytes (set : BitSet) : set.toBytes.length = set.encoding.size :=
  Primitive.length_encode _ _

end BitSet

end SimpleBinary
