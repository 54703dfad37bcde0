import SimpleBinary.Proofs.Carried
import SimpleBinary.Proofs.Counters
import Mathlib.Data.Int.ModEq

namespace SimpleBinary

open scoped Power

def Scalar.integer? : Scalar → Option Int
  | int i => some i.toInt
  | uint n => some n.toNat
  | float _ => none

namespace Primitive

variable {p : Primitive} {s : Scalar} {m n : Int} {bytes : Bytes}

def InRange (p : Primitive) (n : Int) : Prop :=
  if p.isUnsigned then 0 ≤ n ∧ n < 2 ^ p.width
  else -2 ^ (p.width - 1) ≤ n ∧ n < 2 ^ (p.width - 1)

instance (p : Primitive) (n : Int) : Decidable (p.InRange n) :=
  inferInstanceAs (Decidable (if p.isUnsigned then _ else _))

theorem pow_width (p : Primitive) : (2 : Int) ^ p.width = 2 * 2 ^ (p.width - 1) := by
  cases p <;> rfl

theorem eq_of_modEq (hm : p.InRange m) (hn : p.InRange n) (h : m ≡ n [ZMOD 2 ^ p.width]) :
    m = n := by
  have hpow := p.pow_width
  have habs : |n - m| < 2 ^ p.width := by
    unfold InRange at hm hn
    rw [abs_lt]
    split at hm
    next hu =>
      rw [if_pos hu] at hn
      omega
    next hu =>
      rw [if_neg hu] at hn
      omega
  have hzero : n - m = 0 := Int.eq_zero_of_abs_lt_dvd h.dvd habs
  omega

theorem exists_inRange_of_represents (h : p.Represents s) (hf : p.isFloat = false) :
    ∃ m, s.integer? = some m ∧ p.InRange m := by
  cases s with
  | int i =>
    refine ⟨_, rfl, ?_⟩
    rw [InRange, h.1]
    exact h.2.2
  | uint a =>
    refine ⟨_, rfl, ?_⟩
    rw [InRange, if_pos h.1]
    have hlt : a.toNat < 2 ^ p.width := p.le_rawMax_iff.mp h.2
    exact ⟨Int.natCast_nonneg _, by exact_mod_cast hlt⟩
  | float x =>
    rcases h with rfl | ⟨rfl, -⟩
    · cases hf
    · cases hf

theorem modEq_width {a b : Int} (h : a ≡ b [ZMOD 2 ^ 64]) : a ≡ b [ZMOD 2 ^ p.width] :=
  h.of_dvd (pow_dvd_pow 2 p.width_le)

theorem toRaw_modEq (hf : p.isFloat = false) (hs : s.integer? = some n) :
    (p.toRaw s : Int) ≡ n [ZMOD 2 ^ 64] := by
  cases s with
  | float x => cases hs
  | uint a =>
    cases hs
    rw [toRaw_uint hf]
  | int i =>
    cases hs
    have hword : (i.toUInt64.toNat : Int) ≡ i.toInt [ZMOD 2 ^ 64] := by
      have hbmod : i.toInt = ((i.toUInt64.toNat : Nat) : Int).bmod (2 ^ 64) :=
        BitVec.toInt_eq_toNat_bmod _
      rw [hbmod]
      exact Int.bmod_emod.symm
    cases p with
    | float | double => cases hf
    | _ => exact hword

theorem integer?_ofRaw (hf : p.isFloat = false) (raw : Nat) :
    ∃ m, (p.ofRaw raw).integer? = some m ∧ m ≡ raw [ZMOD 2 ^ p.width] := by
  cases hu : p.isUnsigned with
  | true =>
    have hraw : p.ofRaw raw = .uint (UInt64.ofNat raw) := by
      cases p with
      | char | uint8 | uint16 | uint32 | uint64 => rfl
      | _ => cases hu
    refine ⟨_, congrArg Scalar.integer? hraw, modEq_width ?_⟩
    rw [UInt64.toNat_ofNat', Int.natCast_mod]
    exact Int.mod_modEq _ _
  | false =>
    have hpos : 0 < p.width := Nat.mul_pos (by decide) p.size_pos
    refine ⟨_, congrArg Scalar.integer? (ofRaw_signed hf hu raw), ?_⟩
    rw [(toInt_ofInt_bmod hpos p.width_le raw).1]
    exact Int.bmod_emod

theorem integer?_decode_encode (hf : p.isFloat = false) (hs : s.integer? = some n) :
    ∃ m, (p.decode (p.encode s)).integer? = some m ∧ p.InRange m ∧
      m ≡ n [ZMOD 2 ^ p.width] := by
  obtain ⟨m, hm, hrange⟩ := exists_inRange_of_represents (p.represents_decode (p.encode s)) hf
  obtain ⟨m', hm', hmod⟩ := integer?_ofRaw hf (p.toRaw s % 2 ^ p.width)
  rw [← decode_encode_raw, hm] at hm'
  cases hm'
  refine ⟨m, hm, hrange, hmod.trans ?_⟩
  rw [Int.natCast_mod]
  exact (Int.mod_modEq _ _).trans (modEq_width (toRaw_modEq hf hs))

theorem decode_overwrite_encode (s : Scalar) :
    p.decode (bytes.overwrite 0 (p.encode s)) = p.decode (p.encode s) := by
  have hfront : _ = p.encode s := Bytes.slice_overwrite (Nat.zero_le bytes.length)
  rw [length_encode] at hfront
  change (bytes.overwrite 0 (p.encode s)).take p.size = p.encode s at hfront
  rw [decode, decode, hfront, List.take_of_length_le (p.length_encode s).le]

theorem encode_decode_of_le (hf : p.isFloat = false) (h : p.size ≤ bytes.length) :
    p.encode (p.decode bytes) = bytes.slice 0 p.size := by
  have hlength : (bytes.slice 0 p.size).length = p.size := Bytes.length_slice (by omega)
  rw [← encode_decode hf hlength, decode, decode, Bytes.slice, List.drop_zero, List.take_take,
    Nat.min_self]

/-- The element type of an integer primitive reads what the primitive reads of all bytes that are
long enough, and stores what the primitive stores. Of an integer, whatever its sign, the only one
congruent to it modulo the width is read back that lies in the range, hence itself if it does; and
what is read is written as it was. -/
theorem integer_codecs_agree (hf : p.isFloat = false) (h : p.size ≤ bytes.length) :
    (Element.toScalar (Element.decode bytes : p.Native) = p.decode bytes ∧
      bytes.overwrite 0 (p.encode (p.decode bytes)) = bytes ∧
      bytes.overwrite 0 (Element.encode (Element.decode bytes : p.Native)) = bytes) ∧
    ∀ (s : Scalar) (n : Int), s.integer? = some n →
      ∃ written,
        bytes.overwrite 0 (p.encode s) = written ∧
        bytes.overwrite 0 (Element.encode (Element.ofScalar s : p.Native)) = written ∧
        written.length = bytes.length ∧ written.drop p.size = bytes.drop p.size ∧
        p.Represents (p.decode written) ∧
        ∃ m, (p.decode written).integer? = some m ∧ p.InRange m ∧ m ≡ n [ZMOD 2 ^ p.width] ∧
          (∀ k, p.InRange k → k ≡ n [ZMOD 2 ^ p.width] → k = m) ∧ (p.InRange n → m = n) := by
  have hread : Element.toScalar (Element.decode bytes : p.Native) = p.decode bytes :=
    (ElementOf.decode_eq bytes).symm
  have hback : bytes.overwrite 0 (p.encode (p.decode bytes)) = bytes := by
    rw [encode_decode_of_le hf h]
    exact Bytes.overwrite_slice (by omega)
  refine ⟨⟨hread, hback, ?_⟩, ?_⟩
  · rw [← ElementOf.encode_eq (p := p) hf, hread, hback]
  · intro s n hs
    have hfit : 0 + (p.encode s).length ≤ bytes.length := by rwa [length_encode, Nat.zero_add]
    obtain ⟨m, hm, hrange, hmod⟩ := integer?_decode_encode hf hs
    refine ⟨_, rfl, by rw [ExactElementOf.encode_ofScalar (p := p)],
      Bytes.length_overwrite hfit, ?_, p.represents_decode _, m, ?_, hrange, hmod, ?_, ?_⟩
    · rw [Bytes.overwrite, List.take_zero, List.nil_append, Nat.zero_add, length_encode,
        List.drop_left' (p.length_encode s)]
    · rwa [decode_overwrite_encode]
    -- Two integers of one range are congruent only if they are the same.
    · intro k hk hkn
      exact eq_of_modEq hk hrange (hkn.trans hmod.symm)
    · intro hn
      exact eq_of_modEq hrange hn hmod

theorem integer_codecs_agree_wrapping :
    (uint16.decode (Bytes.overwrite [1, 2, 3] 0 (uint16.encode (.int (-2))))).integer? =
        some 65534 ∧
      (int8.decode (Bytes.overwrite [1, 2, 3] 0
        (Element.encode (Element.ofScalar (.uint 200) : int8.Native)))).integer? = some (-56) := by
  obtain ⟨-, hunsigned⟩ := @integer_codecs_agree uint16 [1, 2, 3] rfl (by decide)
  obtain ⟨-, hsigned⟩ := @integer_codecs_agree int8 [1, 2, 3] rfl (by decide)
  obtain ⟨_, rfl, -, -, -, -, m, hm, -, -, honly, -⟩ := hunsigned (.int (-2)) (-2) rfl
  obtain ⟨_, -, rfl, -, -, -, m', hm', -, -, honly', -⟩ := hsigned (.uint 200) 200 rfl
  rw [hm, hm', honly 65534 (by decide) (by decide), honly' (-56) (by decide) (by decide)]
  exact ⟨rfl, rfl⟩

end Primitive

end SimpleBinary
