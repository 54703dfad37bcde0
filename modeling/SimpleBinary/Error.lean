namespace SimpleBinary

inductive Error where
  | bufferTooShort (required limit : Nat)
  | constantMismatch (field : String)
  | resetNotAllowed (field : String)
  | fieldNotFound
  | groupCountExceeded (group : String) (count : Nat)
  | noCurrentElement (group : String)
  | iterationStarted (group : String)
  | fieldNotInVersion (field : String) (actingVersion : UInt16)
  | lengthMismatch (field : String) (expected actual : Nat)
  | lengthOverflow (field : String) (length : Nat)
  | countOverflow (group : String) (count : Nat)
  | bitOutOfRange (bit width : Nat)
  | unknownEnumName (enumeration : String)
  | kindMismatch (field : String)
  | invalidText (field : String)
  | templateMismatch (expected actual : UInt16)
  | schemaMismatch (expected actual : UInt16)
  deriving DecidableEq, Repr

namespace Error

private def named (name : String) : String :=
  "`" ++ name ++ "`"

private def number (n : Nat) : String :=
  String.ofList (Nat.toDigits 10 n)

def message : Error → String
  | bufferTooShort required limit =>
    "buffer too short: needed " ++ number required ++ " bytes, limit is " ++ number limit
  | constantMismatch field => "constant value mismatch for field " ++ named field
  | resetNotAllowed field => "reset not available for field " ++ named field
  | fieldNotFound => "field not found"
  | groupCountExceeded group count =>
    "group " ++ named group ++ " count exceeded (" ++ number count ++ " elements)"
  | noCurrentElement group => "group " ++ named group ++ " has no current element"
  | iterationStarted group => "group " ++ named group ++ " count reset after iteration started"
  | fieldNotInVersion field actingVersion =>
    "field " ++ named field ++ " not present in acting version " ++ number actingVersion.toNat
  | lengthMismatch field expected actual =>
    "length mismatch for field " ++ named field ++ ": expected " ++ number expected ++
      ", got " ++ number actual
  | lengthOverflow field length =>
    "length " ++ number length ++ " does not fit the length prefix of " ++ named field
  | countOverflow group count =>
    "count " ++ number count ++ " does not fit `numInGroup` of " ++ named group
  | bitOutOfRange bit width =>
    "bit " ++ number bit ++ " out of range for a " ++ number width ++ "-bit set"
  | unknownEnumName enumeration => "unknown name for enum " ++ named enumeration
  | kindMismatch field => "kind mismatch for field " ++ named field
  | invalidText field => "invalid text in field " ++ named field
  | templateMismatch expected actual =>
    "template id mismatch: expected " ++ number expected.toNat ++ ", got " ++
      number actual.toNat
  | schemaMismatch expected actual =>
    "schema id mismatch: expected " ++ number expected.toNat ++ ", got " ++ number actual.toNat

end Error

end SimpleBinary
