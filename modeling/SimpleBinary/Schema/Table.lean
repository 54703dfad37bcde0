import SimpleBinary.Schema.Basic

namespace SimpleBinary

inductive SchemaError where
  | choiceOutsideEncoding
  | fieldNotFound
  | memberNotPrimitive
  deriving DecidableEq, Repr

def SchemaError.message : SchemaError → String
  | choiceOutsideEncoding => "choice bit outside the set encoding"
  | fieldNotFound => "field not found"
  | memberNotPrimitive => "composite member is not a primitive type"

def sameBytes : Bytes → Bytes → Bool
  | byte :: rest, byte' :: rest' => if byte ≠ byte' then false else sameBytes rest rest'
  | _, _ => true

def sameText (a b : String) : Bool :=
  if (utf8 a).length ≠ (utf8 b).length then false else sameBytes (utf8 a) (utf8 b)

namespace Field

def indexFrom (name : String) : List Field → Nat → Option Nat
  | [], _ => none
  | f :: rest, index => if sameText f.name name then some index else indexFrom name rest (index + 1)

def index? (fields : List Field) (name : String) : Option Nat :=
  indexFrom name fields 0

def named? (fields : List Field) (name : String) : Option Field :=
  fields.find? (·.name == name)

def requireIndex (fields : List Field) (name : String) : Except SchemaError Nat :=
  match index? fields name with
  | some index => .ok index
  | none => .error .fieldNotFound

def required (name : String) (id : UInt16) (offset : Nat) (kind : Kind) : Field :=
  ⟨name, id, offset, kind, .required, none, 0⟩

def optional (f : Field) : Field :=
  { f with presence := .optional }

def constantly (f : Field) (value : Constant) : Field :=
  { f with presence := .constant, constant := some value }

def introducedIn (f : Field) (version : UInt16) : Field :=
  { f with since := version }

end Field

def SetDef.checked (name : String) (encoding : Primitive) (choices : List Choice) :
    Except SchemaError SetDef :=
  if choices.all fun c => c.bit < encoding.width then .ok ⟨name, encoding, choices⟩
  else .error .choiceOutsideEncoding

def CompositeOf.ofFields (name : String) (fields : List Field) : CompositeDef :=
  ⟨name, fields, fields.foldl (fun length f => max length (wordOf (f.offset + f.encodedLength))) 0⟩

def Member.find (composite : CompositeDef) (name : String) : Except SchemaError Member := do
  let index ← Field.requireIndex composite.fields name
  match composite.fields[index]? with
  | some ⟨_, _, offset, .type t, _, _, _⟩ => .ok ⟨offset, t.primitive⟩
  | _ => .error .memberNotPrimitive

def GroupOf.checked (name : String) (dimension : CompositeDef) (blockLength : Nat)
    (fields : List Field) : Except SchemaError GroupDef := do
  let blockLengthMember ← Member.find dimension "blockLength"
  let numInGroupMember ← Member.find dimension "numInGroup"
  return ⟨name, dimension, blockLengthMember, numInGroupMember, blockLength, fields⟩

def DataOf.checked (name : String) (encoding : CompositeDef) : Except SchemaError DataDef := do
  let lengthMember ← Member.find encoding "length"
  let varDataMember ← Member.find encoding "varData"
  return ⟨name, encoding, lengthMember, varDataMember⟩

end SimpleBinary
