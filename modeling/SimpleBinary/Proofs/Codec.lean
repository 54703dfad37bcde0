import SimpleBinary.Primitive
import SimpleBinary.Proofs.Rounding

namespace SimpleBinary.Primitive

def Represents (p : Primitive) : Scalar → Prop
  | .int i => p.isUnsigned = false ∧ p.isFloat = false ∧
      -2 ^ (p.width - 1) ≤ i.toInt ∧ i.toInt < 2 ^ (p.width - 1)
  | .uint n => p.isUnsigned = true ∧ n.toNat ≤ p.rawMax
  | .float x => p = .double ∨ (p = .float ∧ ∃ y : Binary32, x = y.widen)

theorem pow_size (p : Primitive) : 256 ^ p.size = 2 ^ p.width := by
  rw [width, Nat.pow_mul]

theorem width_le (p : Primitive) : p.width ≤ 64 := by
  cases p <;> decide

theorem le_rawMax_iff (p : Primitive) {n : Nat} : n ≤ p.rawMax ↔ n < 2 ^ p.width :=
  Nat.le_sub_one_iff_lt (Nat.two_pow_pos _)

theorem decode_encode_raw (p : Primitive) (s : Scalar) :
    p.decode (p.encode s) = p.ofRaw (p.toRaw s % 2 ^ p.width) := by
  rw [decode, encode, List.take_of_length_le (by simp), LittleEndian.decode_encode, pow_size]

theorem rawMax_lt (p : Primitive) : p.rawMax < 2 ^ 64 := by
  cases p <;> decide

theorem decode_encode_uint {p : Primitive} (hp : p.isUnsigned = true) {n : Nat}
    (hn : n ≤ p.rawMax) :
    p.decode (p.encode (.uint (UInt64.ofNat n))) = .uint (UInt64.ofNat n) := by
  rw [decode_encode_raw]
  cases p <;> simp only [isUnsigned, Bool.false_eq_true, rawMax, width, size] at hp hn <;>
    simp only [toRaw, ofRaw, Scalar.toUInt64, width, size] <;>
    rw [UInt64.toNat_ofNat_of_lt' (show _ < 2 ^ 64 by omega), Nat.mod_eq_of_lt (by omega)]

theorem bmod_toNat_mod {w : Nat} (hw : 0 < w) (hw' : w ≤ 64) {i : Int64}
    (hi : -2 ^ (w - 1) ≤ i.toInt) (hi' : i.toInt < 2 ^ (w - 1)) :
    ((i.toUInt64.toNat % 2 ^ w : Nat) : Int).bmod (2 ^ w) = i.toInt := by
  have hword : i.toInt = ((i.toUInt64.toNat : Nat) : Int).bmod (2 ^ 64) :=
    BitVec.toInt_eq_toNat_bmod _
  have hdvd : 2 ^ w ∣ 2 ^ 64 := Nat.pow_dvd_pow 2 hw'
  have hrange : i.toInt.bmod (2 ^ w) = i.toInt := by
    have hhalf : (2 : Int) ^ w = 2 * 2 ^ (w - 1) := by
      rw [← Int.pow_succ', Nat.sub_add_cancel hw]
    apply Int.bmod_eq_of_le
    · push_cast
      omega
    · push_cast
      omega
  calc ((i.toUInt64.toNat % 2 ^ w : Nat) : Int).bmod (2 ^ w)
      = ((i.toUInt64.toNat : Nat) : Int).bmod (2 ^ w) := by
        rw [Int.natCast_mod, Int.emod_bmod]
    _ = (((i.toUInt64.toNat : Nat) : Int).bmod (2 ^ 64)).bmod (2 ^ w) := by
        rw [Int.bmod_bmod_of_dvd hdvd]
    _ = i.toInt := by rw [← hword, hrange]

theorem decode_encode_int {p : Primitive} (hu : p.isUnsigned = false) (hf : p.isFloat = false)
    {i : Int64} (hi : -2 ^ (p.width - 1) ≤ i.toInt) (hi' : i.toInt < 2 ^ (p.width - 1)) :
    p.decode (p.encode (.int i)) = .int i := by
  have hbmod := bmod_toNat_mod (w := p.width) (by cases p <;> decide) (by cases p <;> decide) hi hi'
  rw [decode_encode_raw]
  cases p <;> simp only [isUnsigned, isFloat, Bool.true_eq_false] at hu hf <;>
    simp only [toRaw, ofRaw, Scalar.toInt64, hbmod, Int64.ofInt_toInt]

theorem decode_encode_float (x : Binary32) :
    float.decode (float.encode (.float x.widen)) = .float x.widen := by
  have hlt : x.widen.narrow.bits.toNat < 2 ^ float.width := x.widen.narrow.bits.toNat_lt
  rw [decode_encode_raw]
  simp only [toRaw, ofRaw, Scalar.toBinary64]
  rw [Nat.mod_eq_of_lt hlt, UInt32.ofNat_toNat, Binary32.widen_narrow_widen]

theorem decode_encode_double (x : Binary64) :
    double.decode (double.encode (.float x)) = .float x := by
  have hlt : x.bits.toNat < 2 ^ double.width := x.bits.toNat_lt
  rw [decode_encode_raw]
  simp only [toRaw, ofRaw, Scalar.toBinary64]
  rw [Nat.mod_eq_of_lt hlt, UInt64.ofNat_toNat]

theorem decode_encode {p : Primitive} {s : Scalar} (h : p.Represents s) :
    p.decode (p.encode s) = s := by
  cases s with
  | int i => exact decode_encode_int h.1 h.2.1 h.2.2.1 h.2.2.2
  | uint n =>
    have := decode_encode_uint h.1 h.2
    rwa [UInt64.ofNat_toNat] at this
  | float x =>
    rcases h with rfl | ⟨rfl, y, rfl⟩
    · exact decode_encode_double x
    · exact decode_encode_float y

end SimpleBinary.Primitive
