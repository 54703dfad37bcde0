import SimpleBinary.Proofs.Codec
import SimpleBinary.Value

namespace SimpleBinary

open scoped Power

theorem LittleEndian.encode_mod (size n : Nat) : encode size (n % 256 ^ size) = encode size n := by
  induction size generalizing n with
  | zero => rfl
  | succ size ih =>
    have hpow : 256 ^ (size + 1) = 256 * 256 ^ size := Nat.pow_succ'
    have hhead : UInt8.ofNat (n % 256 ^ (size + 1)) = UInt8.ofNat n := by
      apply UInt8.toNat_inj.1
      simp only [UInt8.toNat_ofNat', hpow]
      exact Nat.mod_mul_right_mod n 256 (256 ^ size)
    have htail : n % 256 ^ (size + 1) / 256 = n / 256 % 256 ^ size := by
      rw [hpow, Nat.mod_mul_right_div_self]
    rw [encode, encode, hhead, htail, ih]

namespace Binary64

variable {x y : Binary64}

def isZero (x : Binary64) : Bool :=
  match x.classify with
  | .finite _ 0 _ => true
  | _ => false

theorem equal_iff :
    x.equal y = true ↔
      x.isNaN = false ∧ y.isNaN = false ∧ (x.isZero = true ∧ y.isZero = true ∨ x = y) := by
  have hbits : (x.bits == y.bits) = true ↔ x = y := by
    obtain ⟨x⟩ := x
    obtain ⟨y⟩ := y
    simp
  unfold equal isNaN isZero
  rcases hx : x.classify with ⟨nx, px⟩ | nx | ⟨nx, _ | sx, ex⟩ <;>
    rcases hy : y.classify with ⟨ny, py⟩ | ny | ⟨ny, _ | sy, ey⟩ <;> simp [hbits]

theorem equal_self (h : x.isNaN = false) : x.equal x = true :=
  equal_iff.mpr ⟨h, h, .inr rfl⟩

theorem equal_congr (h : x.equal y = true) (z : Binary64) : z.equal x = z.equal y := by
  have hsame := equal_iff.mp h
  rw [Bool.eq_iff_iff, equal_iff, equal_iff]
  grind

end Binary64

namespace Primitive

variable {p : Primitive}

theorem isFloat_of_isUnsigned (hu : p.isUnsigned) : p.isFloat = false := by
  cases p with
  | float => cases hu
  | double => cases hu
  | _ => rfl

theorem decode_take_lt (p : Primitive) (bytes : Bytes) :
    LittleEndian.decode (bytes.take p.size) < 2 ^ p.width := by
  have hlength : (bytes.take p.size).length ≤ p.size := List.length_take_le _ _
  have hpow : 256 ^ (bytes.take p.size).length ≤ 256 ^ p.size :=
    Nat.pow_le_pow_right (by decide) hlength
  rw [← pow_size]
  exact Nat.lt_of_lt_of_le (LittleEndian.decode_lt _) hpow

theorem toInt_ofInt_bmod {w : Nat} (hw : 0 < w) (hw' : w ≤ 64) (n : Int) :
    (Int64.ofInt (n.bmod (2 ^ w))).toInt = n.bmod (2 ^ w) ∧
      -2 ^ (w - 1) ≤ n.bmod (2 ^ w) ∧ n.bmod (2 ^ w) < 2 ^ (w - 1) := by
  have hhalf : (2 : Nat) ^ w = 2 * 2 ^ (w - 1) := by
    rw [← Nat.pow_succ', Nat.succ_eq_add_one, Nat.sub_add_cancel hw]
  have hcast : ((2 ^ (w - 1) : Nat) : Int) = 2 ^ (w - 1) := by push_cast; rfl
  have hle : (2 : Nat) ^ (w - 1) ≤ 2 ^ 63 := Nat.pow_le_pow_right (by decide) (by omega)
  have hlow : -(((2 ^ w : Nat) : Int) / 2) ≤ n.bmod (2 ^ w) := Int.le_bmod (Nat.two_pow_pos w)
  have hhigh : n.bmod (2 ^ w) < (((2 ^ w : Nat) : Int) + 1) / 2 := Int.bmod_lt (Nat.two_pow_pos w)
  rw [hhalf] at hlow hhigh ⊢
  rw [← hcast]
  exact ⟨Int64.toInt_ofInt_of_le (by omega) (by omega), by omega, by omega⟩

theorem toNat_ofInt_bmod {w : Nat} (hw : 0 < w) (hw' : w ≤ 64) {raw : Nat} (h : raw < 2 ^ w) :
    (Int64.ofInt ((raw : Int).bmod (2 ^ w))).toUInt64.toNat % 2 ^ w = raw := by
  set i := Int64.ofInt ((raw : Int).bmod (2 ^ w)) with hi
  have hword : ((i.toUInt64.toNat : Nat) : Int).bmod (2 ^ 64) = i.toInt :=
    (BitVec.toInt_eq_toNat_bmod _).symm
  have hdvd : ((2 ^ w : Nat) : Int) ∣ ((2 ^ 64 : Nat) : Int) :=
    Int.natCast_dvd_natCast.mpr (Nat.pow_dvd_pow 2 hw')
  have hmod : ((i.toUInt64.toNat : Nat) : Int) % ((2 ^ w : Nat) : Int) =
      (raw : Int) % ((2 ^ w : Nat) : Int) := by
    calc ((i.toUInt64.toNat : Nat) : Int) % ((2 ^ w : Nat) : Int)
        = ((i.toUInt64.toNat : Nat) : Int).bmod (2 ^ 64) % ((2 ^ w : Nat) : Int) := by
          rw [← Int.emod_emod_of_dvd _ hdvd, ← Int.bmod_emod (m := 2 ^ 64),
            Int.emod_emod_of_dvd _ hdvd]
      _ = (raw : Int).bmod (2 ^ w) % ((2 ^ w : Nat) : Int) := by
          rw [hword, hi, (toInt_ofInt_bmod hw hw' raw).1]
      _ = (raw : Int) % ((2 ^ w : Nat) : Int) := Int.bmod_emod
  rw [← Int.natCast_mod, ← Int.natCast_mod, Nat.mod_eq_of_lt h] at hmod
  exact Int.ofNat.inj hmod

theorem represents_ofRaw (p : Primitive) {raw : Nat} (h : raw < 2 ^ p.width) :
    p.Represents (p.ofRaw raw) := by
  have hsigned {w : Nat} (hw : 0 < w) (hw' : w ≤ 64) :
      -2 ^ (w - 1) ≤ (Int64.ofInt ((raw : Int).bmod (2 ^ w))).toInt ∧
        (Int64.ofInt ((raw : Int).bmod (2 ^ w))).toInt < 2 ^ (w - 1) := by
    obtain ⟨heq, hrange⟩ := toInt_ofInt_bmod hw hw' raw
    rw [heq]
    exact hrange
  cases p with
  | float => exact .inr ⟨rfl, _, rfl⟩
  | double => exact .inl rfl
  | int8 => exact ⟨rfl, rfl, hsigned (by decide) (by decide)⟩
  | int16 => exact ⟨rfl, rfl, hsigned (by decide) (by decide)⟩
  | int32 => exact ⟨rfl, rfl, hsigned (by decide) (by decide)⟩
  | int64 => exact ⟨rfl, rfl, hsigned (by decide) (by decide)⟩
  | _ =>
    refine ⟨rfl, ?_⟩
    simp only [rawMax]
    rw [UInt64.toNat_ofNat_of_lt']
    · omega
    · simp only [width, size] at h
      exact Nat.lt_of_lt_of_le h (by decide)

theorem represents_decode (p : Primitive) (bytes : Bytes) : p.Represents (p.decode bytes) :=
  represents_ofRaw p (decode_take_lt p bytes)

theorem decode_le_rawMax (hu : p.isUnsigned) (bytes : Bytes) :
    (p.decode bytes).toUInt64.toNat ≤ p.rawMax := by
  have hrepresents := represents_decode p bytes
  cases hdecode : p.decode bytes with
  | uint n =>
    rw [hdecode] at hrepresents
    exact hrepresents.2
  | int i =>
    rw [hdecode] at hrepresents
    rw [hrepresents.1] at hu
    cases hu
  | float x =>
    rw [hdecode] at hrepresents
    rcases hrepresents with rfl | ⟨rfl, -⟩
    · cases hu
    · cases hu

theorem toRaw_uint (hf : p.isFloat = false) (n : UInt64) : p.toRaw (.uint n) = n.toNat := by
  cases p with
  | float | double => cases hf
  | _ => rfl

theorem toRaw_ofRaw (hf : p.isFloat = false) {raw : Nat} (h : raw < 2 ^ p.width) :
    p.toRaw (p.ofRaw raw) % 2 ^ p.width = raw := by
  cases p with
  | float => cases hf
  | double => cases hf
  | int8 => exact toNat_ofInt_bmod (by decide) (by decide) h
  | int16 => exact toNat_ofInt_bmod (by decide) (by decide) h
  | int32 => exact toNat_ofInt_bmod (by decide) (by decide) h
  | int64 => exact toNat_ofInt_bmod (by decide) (by decide) h
  | _ =>
    have hword : raw < 2 ^ 64 := Nat.lt_of_lt_of_le h (by decide)
    simp only [toRaw, ofRaw, Scalar.toUInt64]
    rw [UInt64.toNat_ofNat_of_lt' hword, Nat.mod_eq_of_lt h]

theorem encode_decode (hf : p.isFloat = false) {bytes : Bytes} (h : bytes.length = p.size) :
    p.encode (p.decode bytes) = bytes := by
  have hraw := toRaw_ofRaw hf (decode_take_lt p bytes)
  rw [encode, decode, ← LittleEndian.encode_mod, pow_size, hraw, List.take_of_length_le (by omega),
    ← h, LittleEndian.encode_decode]

theorem encode_eq_of_equal (hf : p.isFloat = false) {a b : Scalar}
    (h : p.equal a b) : p.encode a = p.encode b := by
  have hraw : p.toRaw a = p.toRaw b := by
    simp only [equal, hf, Bool.false_eq_true, if_false] at h
    cases p with
    | float => cases hf
    | double => cases hf
    | int8 | int16 | int32 | int64 =>
      have hword : a.toInt64 = b.toInt64 := beq_iff_eq.mp h
      simp only [toRaw, hword]
    | _ =>
      have hword : a.toUInt64 = b.toUInt64 := beq_iff_eq.mp h
      simp only [toRaw, hword]
  rw [encode, encode, hraw]

theorem equal_self (p : Primitive) (s : Scalar) : p.equal s s = true := by
  unfold equal
  split
  · cases hs : s.toBinary64.isNaN with
    | true => rfl
    | false => exact Binary64.equal_self hs
  · split
    · exact beq_self_eq_true _
    · exact beq_self_eq_true _

theorem equal_congr {b c : Scalar} (h : p.equal b c = true) (a : Scalar) :
    p.equal a b = p.equal a c := by
  unfold equal at h ⊢
  split at h
  next hf =>
    rw [if_pos hf, if_pos hf]
    cases hc : c.toBinary64.isNaN with
    | true =>
      rw [hc, if_pos rfl] at h
      rw [if_pos h, if_pos rfl]
    | false =>
      rw [hc, if_neg Bool.false_ne_true] at h
      have hb : b.toBinary64.isNaN = false := (Binary64.equal_iff.mp h).1
      rw [hb, if_neg Bool.false_ne_true]
      exact Binary64.equal_congr h _
  next hf =>
    rw [if_neg hf, if_neg hf]
    split at h
    next hu => rw [if_pos hu, if_pos hu, beq_iff_eq.mp h]
    next hu => rw [if_neg hu, if_neg hu, beq_iff_eq.mp h]

end Primitive

end SimpleBinary
