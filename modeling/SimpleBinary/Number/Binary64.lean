import SimpleBinary.Number.FloatFormat

namespace SimpleBinary

structure Binary32 where
  bits : UInt32
  deriving DecidableEq, Repr

structure Binary64 where
  bits : UInt64
  deriving DecidableEq, Repr

def Binary32.widen (x : Binary32) : Binary64 :=
  ⟨UInt64.ofNat (FloatFormat.binary32.convert FloatFormat.binary64 x.bits.toNat)⟩

namespace Binary64

def narrow (x : Binary64) : Binary32 :=
  ⟨UInt32.ofNat (FloatFormat.binary64.convert FloatFormat.binary32 x.bits.toNat)⟩

def nan : Binary64 := ⟨0x7ff8000000000000⟩

def classify (x : Binary64) : FloatClass :=
  FloatFormat.binary64.classify x.bits.toNat

def isNaN (x : Binary64) : Bool :=
  match x.classify with
  | .nan _ _ => true
  | _ => false

def ofRatio (negative : Bool) (num den : Nat) : Binary64 :=
  let format := FloatFormat.binary64
  ⟨UInt64.ofNat (format.signed negative (format.roundRatio num den))⟩

def ofInt (n : Int) : Binary64 :=
  ofRatio (n < 0) n.natAbs 1

def equal (x y : Binary64) : Bool :=
  match x.classify, y.classify with
  | .nan _ _, _ => false
  | _, .nan _ _ => false
  | .finite _ 0 _, .finite _ 0 _ => true
  | _, _ => x.bits == y.bits

def truncate (x : Binary64) (low high : Int) : Int :=
  match x.classify with
  | .nan _ _ => 0
  | .infinite negative => if negative then low else high
  | .finite negative significand exponent =>
    let (n, d) := Ratio.scale significand 1 exponent
    let magnitude : Int := (n / d : Nat)
    max low (min high (if negative then -magnitude else magnitude))

def toUInt64 (x : Binary64) : UInt64 :=
  UInt64.ofInt (x.truncate 0 (UInt64.size - 1))

def toInt64 (x : Binary64) : Int64 :=
  Int64.ofInt (x.truncate Int64.minValue.toInt Int64.maxValue.toInt)

def ratio (x : Binary64) : Nat × Nat :=
  match x.classify with
  | .finite _ significand exponent => Ratio.scale significand 1 exponent
  | _ => (0, 1)

def isNegative (x : Binary64) : Bool :=
  0x8000000000000000 ≤ x.bits

def mul (x y : Binary64) : Binary64 :=
  let (a, b) := x.ratio
  let (c, d) := y.ratio
  ofRatio (x.isNegative != y.isNegative) (a * c) (b * d)

end Binary64

end SimpleBinary
