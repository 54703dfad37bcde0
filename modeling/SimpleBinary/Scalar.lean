import SimpleBinary.Number.Binary64

namespace SimpleBinary

inductive Scalar where
  | int (value : Int64)
  | uint (value : UInt64)
  | float (value : Binary64)
  deriving DecidableEq

namespace Scalar

def toUInt64 : Scalar → UInt64
  | int value => value.toUInt64
  | uint value => value
  | float value => value.toUInt64

def toInt64 : Scalar → Int64
  | int value => value
  | uint value => value.toInt64
  | float value => value.toInt64

def toBinary64 : Scalar → Binary64
  | int value => .ofInt value.toInt
  | uint value => .ofInt value.toNat
  | float value => value

end Scalar

end SimpleBinary
