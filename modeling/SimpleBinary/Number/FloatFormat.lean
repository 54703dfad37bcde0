import SimpleBinary.Bytes

/-!
Binary floating-point formats as bit patterns. A pattern is taken apart into a sign, a significand
and a power of two, and a ratio of natural numbers is rounded to the nearest pattern, the even one
of two nearest.
-/

namespace SimpleBinary

open scoped Power

structure FloatFormat where
  exponentBits : Nat
  fractionBits : Nat
  deriving DecidableEq, Repr

inductive FloatClass where
  | nan (negative : Bool) (payload : Nat)
  | infinite (negative : Bool)
  | finite (negative : Bool) (significand : Nat) (exponent : Int)
  deriving DecidableEq, Repr

namespace Ratio

def roundHalfEven (num den : Nat) : Nat :=
  let quotient := num / den
  let rest := num % den
  if den < 2 * rest ∨ (2 * rest = den ∧ quotient % 2 = 1) then quotient + 1 else quotient

def scale (num den : Nat) (power : Int) : Nat × Nat :=
  if 0 ≤ power then (num * 2 ^ power.toNat, den) else (num, den * 2 ^ (-power).toNat)

def floorLog2 (num den : Nat) : Int :=
  let guess := (num.log2 : Int) - den.log2
  -- The difference of the logarithms may be one too great.
  let (n, d) := scale num den (-guess)
  if d ≤ n then guess else guess - 1

end Ratio

namespace FloatFormat

def binary32 : FloatFormat := ⟨8, 23⟩

def binary64 : FloatFormat := ⟨11, 52⟩

variable (format : FloatFormat)

def signBit : Nat :=
  2 ^ (format.exponentBits + format.fractionBits)

def infinity : Nat :=
  (2 ^ format.exponentBits - 1) * 2 ^ format.fractionBits

def quietBit : Nat :=
  2 ^ (format.fractionBits - 1)

def minExponent : Int :=
  2 - 2 ^ (format.exponentBits - 1) - format.fractionBits

def signed (negative : Bool) (magnitude : Nat) : Nat :=
  if negative then format.signBit + magnitude else magnitude

def classify (pattern : Nat) : FloatClass :=
  let negative := pattern / format.signBit % 2 == 1
  let biased := pattern / 2 ^ format.fractionBits % 2 ^ format.exponentBits
  let fraction := pattern % 2 ^ format.fractionBits
  if biased = 2 ^ format.exponentBits - 1 then
    if fraction = 0 then .infinite negative else .nan negative fraction
  else if biased = 0 then .finite negative fraction format.minExponent
  else .finite negative (2 ^ format.fractionBits + fraction) (format.minExponent + biased - 1)

/-- The pattern nearest to `num / den`, for positive `den`; infinity from half a unit above the
greatest finite number on. -/
def roundRatio (num den : Nat) : Nat :=
  if num = 0 then 0 else
    let unit := max format.minExponent (Ratio.floorLog2 num den - format.fractionBits)
    let (n, d) := Ratio.scale num den (-unit)
    -- A significand rounded up to the next power of two carries into the exponent.
    let magnitude := (unit - format.minExponent).toNat * 2 ^ format.fractionBits
      + Ratio.roundHalfEven n d
    min magnitude format.infinity

def round (negative : Bool) (significand : Nat) (exponent : Int) : Nat :=
  let (n, d) := Ratio.scale significand 1 exponent
  format.signed negative (format.roundRatio n d)

def convert (target : FloatFormat) (pattern : Nat) : Nat :=
  match format.classify pattern with
  | .finite negative significand exponent => target.round negative significand exponent
  | .infinite negative => target.signed negative target.infinity
  | .nan negative payload =>
    let aligned := payload * 2 ^ target.fractionBits / 2 ^ format.fractionBits
    target.signed negative (target.infinity + (aligned ||| target.quietBit))

end FloatFormat

end SimpleBinary
