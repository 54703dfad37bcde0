import SimpleBinary.Scalar

/-!
JSON values, known by the functions of a library that makes them, tells them apart and spells them.
-/

namespace SimpleBinary

/-- The kinds that a value is matched against. Booleans, numbers and objects are other values. -/
inductive JsonView (J : Type) where
  | null
  | string (value : String)
  | array (items : List J)
  | other

class JsonValues (J : Type) where
  null : J
  string : String → J
  array : List J → J
  object : List (String × J) → J
  ofInt64 : Int64 → J
  ofUInt64 : UInt64 → J
  ofBinary64 : Binary64 → J
  view : J → JsonView J
  member : J → String → J
  toString? : J → Option String
  toList? : J → Option (List J)
  toInt64? : J → Option Int64
  toUInt64? : J → Option UInt64
  toBinary64? : J → Option Binary64
  compact : J → String
  indented : J → String

def JsonValues.ofScalar {J : Type} [JsonValues J] : Scalar → J
  | .int value => ofInt64 value
  | .uint value => ofUInt64 value
  | .float value => ofBinary64 value

end SimpleBinary
