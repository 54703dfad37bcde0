import SimpleBinary.Number.Binary64
import Mathlib.Tactic.Ring

namespace SimpleBinary

namespace Ratio

theorem roundHalfEven_mul {k den : Nat} (h : 0 < den) : roundHalfEven (k * den) den = k := by
  unfold roundHalfEven
  rw [Nat.mul_mod_left, Nat.mul_div_cancel k h]
  exact if_neg (by omega)

theorem scale_fst (num den : Nat) (power : Int) :
    (scale num den power).1 = num * 2 ^ power.toNat := by
  unfold scale
  split
  next => rfl
  next h => simp [Int.toNat_of_nonpos (Int.le_of_lt (Int.lt_of_not_ge h))]

theorem scale_snd (num den : Nat) (power : Int) :
    (scale num den power).2 = den * 2 ^ (-power).toNat := by
  unfold scale
  split
  next h => simp [Int.toNat_of_nonpos (Int.neg_nonpos_of_nonneg h)]
  next => rfl

theorem mul_two_pow_eq {s k a b c d : Nat} (h : s * 2 ^ a = k * 2 ^ b) (hd : c + b = d + a) :
    s * 2 ^ c = k * 2 ^ d := by
  have hp : 0 < 2 ^ (a + b) := Nat.two_pow_pos _
  apply Nat.eq_of_mul_eq_mul_right hp
  calc s * 2 ^ c * 2 ^ (a + b) = s * 2 ^ a * 2 ^ (c + b) := by ring
    _ = k * 2 ^ b * 2 ^ (d + a) := by rw [h, hd]
    _ = k * 2 ^ d * 2 ^ (a + b) := by ring

theorem log2_mul_two_pow {n : Nat} (h : n ≠ 0) (k : Nat) : (n * 2 ^ k).log2 = n.log2 + k := by
  induction k with
  | zero => simp
  | succ k ih =>
    have hn : n * 2 ^ k ≠ 0 := Nat.mul_ne_zero h (Nat.two_pow_pos k).ne'
    rw [Nat.pow_succ, ← Nat.mul_assoc, Nat.mul_comm _ 2, Nat.log2_two_mul hn, ih, Nat.add_assoc]

theorem floorLog2_scale {s : Nat} (hs : s ≠ 0) (e : Int) :
    floorLog2 (scale s 1 e).1 (scale s 1 e).2 = s.log2 + e := by
  rw [scale_fst, scale_snd]
  have hguess : (((s * 2 ^ e.toNat).log2 : Nat) : Int) - ((1 * 2 ^ (-e).toNat).log2 : Nat) =
      s.log2 + e := by
    rw [log2_mul_two_pow hs, log2_mul_two_pow Nat.one_ne_zero]
    have hone : Nat.log2 1 = 0 := by decide
    omega
  have hle : 1 * 2 ^ (-e).toNat * 2 ^ (s.log2 + e).toNat ≤
      s * 2 ^ e.toNat * 2 ^ (-(s.log2 + e)).toNat := by
    have hexp : (-e).toNat + (s.log2 + e).toNat =
        s.log2 + (e.toNat + (-(s.log2 + e)).toNat) := by omega
    calc 1 * 2 ^ (-e).toNat * 2 ^ (s.log2 + e).toNat
        = 2 ^ s.log2 * 2 ^ (e.toNat + (-(s.log2 + e)).toNat) := by
          rw [Nat.one_mul, ← Nat.pow_add, hexp, Nat.pow_add]
      _ ≤ s * 2 ^ (e.toNat + (-(s.log2 + e)).toNat) :=
          Nat.mul_le_mul_right _ (Nat.log2_self_le hs)
      _ = s * 2 ^ e.toNat * 2 ^ (-(s.log2 + e)).toNat := by rw [Nat.pow_add, Nat.mul_assoc]
  unfold floorLog2
  simp only [hguess, scale_fst, scale_snd, Int.neg_neg]
  exact if_pos hle

end Ratio

namespace FloatFormat

variable (format : FloatFormat)

theorem roundRatio_scale {s k : Nat} {e unit : Int} (hs : s ≠ 0)
    (hunit : unit = max format.minExponent (s.log2 + e - format.fractionBits))
    (hk : s * 2 ^ (e - unit).toNat = k * 2 ^ (unit - e).toNat) :
    format.roundRatio (Ratio.scale s 1 e).1 (Ratio.scale s 1 e).2 =
      min ((unit - format.minExponent).toNat * 2 ^ format.fractionBits + k) format.infinity := by
  have hnum : (Ratio.scale s 1 e).1 ≠ 0 := by
    rw [Ratio.scale_fst]
    exact Nat.mul_ne_zero hs (Nat.two_pow_pos _).ne'
  have hround : Ratio.roundHalfEven (s * 2 ^ e.toNat * 2 ^ (-unit).toNat)
      (1 * 2 ^ (-e).toNat * 2 ^ (-(-unit)).toNat) = k := by
    have hmul : s * 2 ^ e.toNat * 2 ^ (-unit).toNat =
        k * (1 * 2 ^ (-e).toNat * 2 ^ (-(-unit)).toNat) := by
      rw [Nat.one_mul, Nat.mul_assoc, ← Nat.pow_add, ← Nat.pow_add]
      exact Ratio.mul_two_pow_eq hk (by omega)
    rw [hmul]
    apply Ratio.roundHalfEven_mul
    exact Nat.mul_pos (Nat.mul_pos Nat.one_pos (Nat.two_pow_pos _)) (Nat.two_pow_pos _)
  unfold roundRatio
  rw [if_neg hnum, Ratio.floorLog2_scale hs, ← hunit]
  simp only [Ratio.scale_fst, Ratio.scale_snd] at hround ⊢
  rw [hround]

theorem signBit_eq : format.signBit = 2 ^ format.fractionBits * 2 ^ format.exponentBits := by
  rw [signBit, Nat.add_comm, Nat.pow_add]

theorem classify_signed {m : Nat} (hm : m < format.signBit) (negative : Bool) :
    format.classify (format.signed negative m) =
      if m / 2 ^ format.fractionBits = 2 ^ format.exponentBits - 1 then
        if m % 2 ^ format.fractionBits = 0 then .infinite negative
        else .nan negative (m % 2 ^ format.fractionBits)
      else if m / 2 ^ format.fractionBits = 0 then
        .finite negative (m % 2 ^ format.fractionBits) format.minExponent
      else .finite negative (2 ^ format.fractionBits + m % 2 ^ format.fractionBits)
        (format.minExponent + (m / 2 ^ format.fractionBits : Nat) - 1) := by
  have hpos : 0 < format.signBit := Nat.two_pow_pos _
  have hexp : m / 2 ^ format.fractionBits < 2 ^ format.exponentBits := by
    apply Nat.div_lt_of_lt_mul
    rwa [← signBit_eq]
  cases negative with
  | false =>
    have hneg : m / format.signBit % 2 = 0 := by rw [Nat.div_eq_of_lt hm]
    simp [classify, signed, hneg, Nat.mod_eq_of_lt hexp]
  | true =>
    have hneg : (format.signBit + m) / format.signBit % 2 = 1 := by
      rw [Nat.add_div_left _ hpos, Nat.div_eq_of_lt hm]
    have hdiv : (format.signBit + m) / 2 ^ format.fractionBits % 2 ^ format.exponentBits =
        m / 2 ^ format.fractionBits := by
      rw [signBit_eq, Nat.mul_add_div (Nat.two_pow_pos _), Nat.add_mod_left, Nat.mod_eq_of_lt hexp]
    have hmod : (format.signBit + m) % 2 ^ format.fractionBits = m % 2 ^ format.fractionBits := by
      rw [signBit_eq, Nat.mul_add_mod]
    simp [classify, signed, hneg, hdiv, hmod]

theorem signed_lt {m : Nat} (hm : m < format.signBit) (negative : Bool) :
    format.signed negative m < 2 * format.signBit := by
  cases negative <;> simp [signed] <;> omega

theorem eq_signed {pattern : Nat} (h : pattern < 2 * format.signBit) :
    ∃ negative m, m < format.signBit ∧ pattern = format.signed negative m := by
  by_cases hp : pattern < format.signBit
  · exact ⟨false, pattern, hp, rfl⟩
  · refine ⟨true, pattern - format.signBit, by omega, ?_⟩
    simp only [signed, if_true]
    omega

theorem round_zero (negative : Bool) (e : Int) :
    format.round negative 0 e = format.signed negative 0 := by
  simp only [round, roundRatio, Ratio.scale_fst, Nat.zero_mul, if_true]

def parts32 (m : Nat) : Nat × Int :=
  if m / 2 ^ 23 = 0 then (m % 2 ^ 23, -149)
  else (2 ^ 23 + m % 2 ^ 23, -149 + (m / 2 ^ 23 : Nat) - 1)

theorem infinity_binary32 : binary32.infinity = 255 * 2 ^ 23 := by decide

theorem infinity_binary64 : binary64.infinity = 2047 * 2 ^ 52 := by decide

theorem signBit_binary32 : binary32.signBit = 2 ^ 31 := by decide

theorem signBit_binary64 : binary64.signBit = 2 ^ 63 := by decide

theorem minExponent_binary32 : binary32.minExponent = -149 := by decide

theorem minExponent_binary64 : binary64.minExponent = -1074 := by decide

theorem classify_finite32 {m : Nat} (hm : m < binary32.infinity) (negative : Bool) :
    binary32.classify (binary32.signed negative m) =
      .finite negative (parts32 m).1 (parts32 m).2 := by
  rw [infinity_binary32] at hm
  rw [classify_signed binary32 (by rw [signBit_binary32]; omega),
    if_neg (by simp only [binary32]; omega), minExponent_binary32]
  unfold parts32
  split
  next h => rw [if_pos (by exact h)]; rfl
  next h => rw [if_neg (by exact h)]; rfl

theorem parts32_bounds {m : Nat} (hm : m < binary32.infinity) (hs : (parts32 m).1 ≠ 0) :
    (parts32 m).1.log2 ≤ 23 ∧ -149 ≤ (parts32 m).2 ∧ (parts32 m).2 ≤ 104 := by
  rw [infinity_binary32] at hm
  have hlt : (parts32 m).1 < 2 ^ 24 := by
    unfold parts32
    split <;> simp only <;> omega
  refine ⟨by have := (Nat.log2_lt hs).mpr hlt; omega, ?_⟩
  unfold parts32
  split <;> simp only <;> omega

def significand64 (s : Nat) : Nat :=
  s * 2 ^ (52 - s.log2)

def magnitude64 (s : Nat) (e : Int) : Nat :=
  (s.log2 + e - 52 + 1074).toNat * 2 ^ 52 + significand64 s

theorem log2_significand64 {s : Nat} (hs : s ≠ 0) (hl : s.log2 ≤ 23) :
    (significand64 s).log2 = 52 := by
  rw [significand64, Ratio.log2_mul_two_pow hs]
  omega

theorem significand64_ne_zero {s : Nat} (hs : s ≠ 0) : significand64 s ≠ 0 :=
  Nat.mul_ne_zero hs (Nat.two_pow_pos _).ne'

theorem significand64_bounds {s : Nat} (hs : s ≠ 0) (hl : s.log2 ≤ 23) :
    2 ^ 52 ≤ significand64 s ∧ significand64 s < 2 ^ 53 :=
  (Nat.log2_eq_iff (significand64_ne_zero hs)).mp (log2_significand64 hs hl)

theorem magnitude64_lt {s : Nat} {e : Int} (hs : s ≠ 0) (hl : s.log2 ≤ 23) (he : e ≤ 104) :
    magnitude64 s e < binary64.infinity := by
  have hk := significand64_bounds hs hl
  rw [infinity_binary64]
  unfold magnitude64
  omega

theorem round_binary64 {s : Nat} {e : Int} (hs : s ≠ 0) (hl : s.log2 ≤ 23) (he : -149 ≤ e)
    (he' : e ≤ 104) (negative : Bool) :
    binary64.round negative s e = binary64.signed negative (magnitude64 s e) := by
  have hk : s * 2 ^ (e - (s.log2 + e - 52)).toNat =
      significand64 s * 2 ^ ((s.log2 + e - 52) - e).toNat := by
    rw [show (e - (s.log2 + e - 52)).toNat = 52 - s.log2 by omega,
      show ((s.log2 + e - 52) - e).toNat = 0 by omega, Nat.pow_zero, Nat.mul_one, significand64]
  have hunit : (s.log2 : Int) + e - 52 =
      max binary64.minExponent (s.log2 + e - binary64.fractionBits) := by
    rw [minExponent_binary64, show (binary64.fractionBits : Int) = 52 from rfl]
    omega
  simp only [round]
  rw [roundRatio_scale binary64 hs hunit hk, minExponent_binary64]
  congr 1
  apply Nat.min_eq_left
  exact Nat.le_of_lt (magnitude64_lt hs hl he')

theorem classify_magnitude64 {s : Nat} {e : Int} (hs : s ≠ 0) (hl : s.log2 ≤ 23) (he : -149 ≤ e)
    (he' : e ≤ 104) (negative : Bool) :
    binary64.classify (binary64.signed negative (magnitude64 s e)) =
      .finite negative (significand64 s) (s.log2 + e - 52) := by
  have hk := significand64_bounds hs hl
  have hlt := magnitude64_lt hs hl he'
  rw [infinity_binary64] at hlt
  have hdiv : magnitude64 s e / 2 ^ 52 = (s.log2 + e - 52 + 1074).toNat + 1 := by
    unfold magnitude64
    omega
  have hmod : magnitude64 s e % 2 ^ 52 = significand64 s - 2 ^ 52 := by
    unfold magnitude64
    omega
  rw [classify_signed binary64 (by rw [signBit_binary64]; omega), minExponent_binary64]
  simp only [show binary64.fractionBits = 52 from rfl, show binary64.exponentBits = 11 from rfl,
    hdiv, hmod]
  have hsig : 2 ^ 52 + (significand64 s - 2 ^ 52) = significand64 s := by omega
  have hexp : (-1074 : Int) + ((s.log2 + e - 52 + 1074).toNat + 1 : Nat) - 1 = s.log2 + e - 52 := by
    omega
  rw [if_neg (by omega), if_neg (by omega), hsig, hexp]

theorem round_binary32 {m : Nat} (hm : m < binary32.infinity) (hs : (parts32 m).1 ≠ 0)
    (negative : Bool) :
    binary32.round negative (significand64 (parts32 m).1)
      ((parts32 m).1.log2 + (parts32 m).2 - 52) = binary32.signed negative m := by
  obtain ⟨hl, he, -⟩ := parts32_bounds hm hs
  have hk : significand64 (parts32 m).1 *
      2 ^ ((parts32 m).1.log2 + (parts32 m).2 - 52 - (parts32 m).2).toNat =
      (parts32 m).1 * 2 ^ ((parts32 m).2 - ((parts32 m).1.log2 + (parts32 m).2 - 52)).toNat := by
    rw [show ((parts32 m).1.log2 + (parts32 m).2 - 52 - (parts32 m).2).toNat = 0 by omega,
      show ((parts32 m).2 - ((parts32 m).1.log2 + (parts32 m).2 - 52)).toNat =
        52 - (parts32 m).1.log2 by omega, Nat.pow_zero, Nat.mul_one, significand64]
  have hunit : (parts32 m).2 = max binary32.minExponent
      ((significand64 (parts32 m).1).log2 + ((parts32 m).1.log2 + (parts32 m).2 - 52) -
        binary32.fractionBits) := by
    rw [minExponent_binary32, log2_significand64 hs hl,
      show (binary32.fractionBits : Int) = 23 from rfl]
    -- Subnormal singles have the least unit, the others that of their leading digit.
    by_cases hz : m / 2 ^ 23 = 0
    · have hlt : (parts32 m).1 < 2 ^ 23 := by
        simp only [parts32, if_pos hz]
        omega
      have := (Nat.log2_lt hs).mpr hlt
      have he2 : (parts32 m).2 = -149 := by simp only [parts32, if_pos hz]
      omega
    · have hge : 2 ^ 23 ≤ (parts32 m).1 := by
        simp only [parts32, if_neg hz]
        omega
      have := (Nat.le_log2 hs).mpr hge
      omega
  simp only [round]
  rw [roundRatio_scale binary32 (significand64_ne_zero hs) hunit hk, minExponent_binary32]
  congr 1
  rw [infinity_binary32] at hm ⊢
  unfold parts32
  simp only [show binary32.fractionBits = 23 from rfl]
  split <;> simp only <;> omega

theorem convert_convert_finite {m : Nat} (hm : m < binary32.infinity) (negative : Bool) :
    binary64.convert binary32 (binary32.convert binary64 (binary32.signed negative m)) =
      binary32.signed negative m := by
  have hwide : binary32.convert binary64 (binary32.signed negative m) =
      binary64.round negative (parts32 m).1 (parts32 m).2 := by
    simp only [convert, classify_finite32 hm]
  rw [hwide]
  by_cases hs : (parts32 m).1 = 0
  · have hm0 : m = 0 := by
      unfold parts32 at hs
      split at hs <;> simp only at hs <;> omega
    have hclass : binary64.classify (binary64.signed negative 0) = .finite negative 0 (-1074) := by
      cases negative <;> decide
    rw [hs, round_zero, hm0]
    simp only [convert, hclass, round_zero]
  · obtain ⟨hl, he, he'⟩ := parts32_bounds hm hs
    rw [round_binary64 hs hl he he']
    simp only [convert, classify_magnitude64 hs hl he he']
    exact round_binary32 hm hs negative

theorem quiet_payload (f : Nat) :
    f * 2 ^ 52 / 2 ^ 23 ||| 2 ^ 51 = (f ||| 2 ^ 22) * 2 ^ 29 := by
  have hdiv : f * 2 ^ 52 / 2 ^ 23 = f * 2 ^ 29 := by omega
  rw [hdiv, ← Nat.shiftLeft_eq, ← Nat.shiftLeft_eq, Nat.shiftLeft_or_distrib]
  rfl

theorem convert_nan32 {f : Nat} (hf : 0 < f) (hf' : f < 2 ^ 23) (negative : Bool) :
    binary32.convert binary64 (binary32.signed negative (binary32.infinity + f)) =
      binary64.signed negative (binary64.infinity + (f ||| 2 ^ 22) * 2 ^ 29) := by
  have hclass : binary32.classify (binary32.signed negative (binary32.infinity + f)) =
      .nan negative f := by
    rw [infinity_binary32, classify_signed binary32 (by rw [signBit_binary32]; omega)]
    simp only [show binary32.fractionBits = 23 from rfl, show binary32.exponentBits = 8 from rfl]
    rw [if_pos (by omega), if_neg (by omega), Nat.mul_add_mod', Nat.mod_eq_of_lt hf']
  simp only [convert, hclass]
  rw [← quiet_payload]
  rfl

theorem classify_nan64 {g : Nat} (hg : 0 < g) (hg' : g < 2 ^ 23) (negative : Bool) :
    binary64.classify (binary64.signed negative (binary64.infinity + g * 2 ^ 29)) =
      .nan negative (g * 2 ^ 29) := by
  rw [infinity_binary64, classify_signed binary64 (by rw [signBit_binary64]; omega)]
  simp only [show binary64.fractionBits = 52 from rfl, show binary64.exponentBits = 11 from rfl]
  rw [if_pos (by omega), if_neg (by omega), Nat.mul_add_mod', Nat.mod_eq_of_lt (by omega)]

theorem convert_nan64 {g : Nat} (hg : 0 < g) (hg' : g < 2 ^ 23) (negative : Bool) :
    binary64.convert binary32 (binary64.signed negative (binary64.infinity + g * 2 ^ 29)) =
      binary32.signed negative (binary32.infinity + (g ||| 2 ^ 22)) := by
  have hdiv : g * 2 ^ 29 * 2 ^ 23 / 2 ^ 52 = g := by omega
  simp only [convert, classify_nan64 hg hg']
  rw [show binary32.fractionBits = 23 from rfl, show binary64.fractionBits = 52 from rfl, hdiv]
  rfl

theorem convert_cycle {m : Nat} (hm : m < binary32.signBit) (negative : Bool) :
    ∃ wide narrow, wide < binary64.signBit ∧ narrow < binary32.signBit ∧
      binary32.convert binary64 (binary32.signed negative m) = binary64.signed negative wide ∧
      binary64.convert binary32 (binary64.signed negative wide) = binary32.signed negative narrow ∧
      binary32.convert binary64 (binary32.signed negative narrow) =
        binary64.signed negative wide := by
  rw [signBit_binary32, signBit_binary64]
  rw [signBit_binary32] at hm
  -- Below infinity the single itself comes back; above it a quiet not-a-number does.
  rcases Nat.lt_trichotomy m binary32.infinity with h | h | h
  · have hback := convert_convert_finite h negative
    have hwide : ∃ wide < 2 ^ 63, binary32.convert binary64 (binary32.signed negative m) =
        binary64.signed negative wide := by
      simp only [convert, classify_finite32 h]
      by_cases hs : (parts32 m).1 = 0
      · exact ⟨0, by decide, by rw [hs, round_zero]⟩
      · obtain ⟨hl, he, he'⟩ := parts32_bounds h hs
        have hlt := magnitude64_lt hs hl he'
        rw [infinity_binary64] at hlt
        exact ⟨_, by omega, round_binary64 hs hl he he' negative⟩
    obtain ⟨wide, hlt, hw⟩ := hwide
    exact ⟨wide, m, hlt, hm, hw, by rw [← hw, hback], hw⟩
  · have hwide : binary32.convert binary64 (binary32.signed negative binary32.infinity) =
        binary64.signed negative binary64.infinity := by cases negative <;> decide
    have hback : binary64.convert binary32 (binary64.signed negative binary64.infinity) =
        binary32.signed negative binary32.infinity := by cases negative <;> decide
    subst h
    exact ⟨binary64.infinity, binary32.infinity, by decide, by decide, hwide, hback, hwide⟩
  · obtain ⟨f, rfl⟩ := Nat.exists_eq_add_of_le (Nat.le_of_lt h)
    have hf' : f < 2 ^ 23 := by
      rw [infinity_binary32] at hm
      omega
    have hlt : (f ||| 2 ^ 22) < 2 ^ 23 := Nat.or_lt_two_pow hf' (by decide)
    have hle : f ≤ f ||| 2 ^ 22 := Nat.left_le_or
    have hquiet : (f ||| 2 ^ 22) ||| 2 ^ 22 = f ||| 2 ^ 22 := by rw [Nat.or_assoc, Nat.or_self]
    refine ⟨binary64.infinity + (f ||| 2 ^ 22) * 2 ^ 29, binary32.infinity + (f ||| 2 ^ 22), ?_, ?_,
      convert_nan32 (by omega) hf' negative, ?_, ?_⟩
    · rw [infinity_binary64]
      omega
    · rw [infinity_binary32]
      omega
    · rw [convert_nan64 (by omega) hlt, hquiet]
    · rw [convert_nan32 (by omega) hlt, hquiet]

end FloatFormat

namespace Binary32

open FloatFormat

theorem widen_narrow_widen (x : Binary32) : x.widen.narrow.widen = x.widen := by
  have hlt : x.bits.toNat < 2 * binary32.signBit := x.bits.toNat_lt
  obtain ⟨negative, m, hm, hx⟩ := eq_signed binary32 hlt
  obtain ⟨wide, narrow, hwide, hnarrow, hto, hback, hagain⟩ := convert_cycle hm negative
  have hw : x.widen = ⟨UInt64.ofNat (binary64.signed negative wide)⟩ := by
    rw [widen, hx, hto]
  have hw64 : (UInt64.ofNat (binary64.signed negative wide)).toNat =
      binary64.signed negative wide :=
    UInt64.toNat_ofNat_of_lt' (signed_lt binary64 hwide negative)
  have hn32 : (UInt32.ofNat (binary32.signed negative narrow)).toNat =
      binary32.signed negative narrow :=
    UInt32.toNat_ofNat_of_lt' (signed_lt binary32 hnarrow negative)
  rw [hw, Binary64.narrow, hw64, hback, widen, hn32, hagain]

theorem narrow_widen {x : Binary32} (h : x.widen.isNaN = false) : x.widen.narrow = x := by
  have hlt : x.bits.toNat < 2 * binary32.signBit := x.bits.toNat_lt
  obtain ⟨negative, m, hm, hx⟩ := eq_signed binary32 hlt
  obtain ⟨wide, -, hwide, -, hto, -, -⟩ := convert_cycle hm negative
  have hw : x.widen.bits.toNat = binary64.signed negative wide := by
    rw [widen, hx, hto]
    exact UInt64.toNat_ofNat_of_lt' (signed_lt binary64 hwide negative)
  have hback : binary64.convert binary32 (binary64.signed negative wide) =
      binary32.signed negative m := by
    rw [← hto]
    rcases Nat.lt_trichotomy m binary32.infinity with hfinite | rfl | hnan
    · exact convert_convert_finite hfinite negative
    · cases negative <;> decide
    · obtain ⟨f, rfl⟩ := Nat.exists_eq_add_of_le (Nat.le_of_lt hnan)
      rw [signBit_binary32, infinity_binary32] at hm
      have hf : f < 2 ^ 23 := by omega
      have hpos : 0 < f ||| 2 ^ 22 := Nat.lt_of_lt_of_le (by decide) Nat.right_le_or
      have hpayload : f ||| 2 ^ 22 < 2 ^ 23 := Nat.or_lt_two_pow hf (by decide)
      rw [Binary64.isNaN, Binary64.classify, hw, ← hto, convert_nan32 (by omega) hf,
        classify_nan64 hpos hpayload] at h
      cases h
  rw [Binary64.narrow, hw, hback, ← hx, UInt32.ofNat_toNat]

end Binary32

end SimpleBinary
