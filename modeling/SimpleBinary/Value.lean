import SimpleBinary.Schema.Basic

namespace SimpleBinary

structure ScalarArray where
  primitive : Primitive
  bytes : Bytes
  deriving DecidableEq

namespace ScalarArray

def ofBytes (bytes : Bytes) (primitive : Primitive) : ScalarArray :=
  ⟨primitive, bytes.take (bytes.length - bytes.length % primitive.size)⟩

def length (a : ScalarArray) : Nat :=
  a.bytes.length / a.primitive.size

def isEmpty (a : ScalarArray) : Bool :=
  a.bytes.isEmpty

def get? (a : ScalarArray) (index : Nat) : Option Scalar :=
  let size := a.primitive.size
  if (index + 1) * size ≤ a.bytes.length then
    some (a.primitive.decode (a.bytes.slice (index * size) size))
  else none

def toList (a : ScalarArray) : List Scalar :=
  (Bytes.pieces a.primitive.size a.length a.bytes).map a.primitive.decode

end ScalarArray

inductive Value where
  | scalar (value : Scalar)
  | text (characters : Bytes)
  | array (elements : ScalarArray)
  deriving DecidableEq

namespace Constant

def toValue : Constant → Value
  | scalar value => .scalar value
  | text characters => .text (utf8 characters)

def matchesValue (constant : Constant) (p : Primitive) (value : Value) : Bool :=
  match constant, value with
  | scalar expected, .scalar actual => p.equal actual expected
  | text expected, .text actual => utf8 expected == actual
  | _, _ => false

def element (constant : Constant) (index : Nat) : Scalar :=
  match constant with
  | scalar value => value
  | text characters => .uint ((utf8 characters).getD index 0).toUInt64

end Constant

end SimpleBinary
