import SimpleBinary.Primitive

/-!
Schemas: what the fields of a message are, where they lie, and since when they exist. A message, a
group element and a composite each have a table of fields in wire order.
-/

namespace SimpleBinary

inductive Presence where
  | required
  | optional
  | constant
  deriving DecidableEq, Repr

inductive Constant where
  | scalar (value : Scalar)
  | text (characters : String)
  deriving DecidableEq

def utf8 (text : String) : Bytes :=
  text.toUTF8.data.toList

structure TypeDef where
  name : String
  primitive : Primitive
  length : Nat
  null? : Option Scalar
  least? : Option Scalar
  greatest? : Option Scalar
  length_lt : length < UInt64.size
  deriving DecidableEq

structure ValidValue where
  name : String
  value : UInt64
  since : UInt16
  deriving DecidableEq, Repr

structure EnumDef where
  name : String
  encoding : Primitive
  null : UInt64
  values : List ValidValue
  deriving DecidableEq, Repr

structure Choice where
  name : String
  bit : Nat
  since : UInt16
  deriving DecidableEq, Repr

structure SetDef where
  name : String
  encoding : Primitive
  choices : List Choice
  deriving DecidableEq, Repr

structure Member where
  offset : Nat
  primitive : Primitive
  deriving DecidableEq, Repr

structure CompositeOf (F : Type) where
  name : String
  fields : List F
  encodedLength : Nat

structure GroupOf (F : Type) where
  name : String
  dimension : CompositeOf F
  blockLengthMember : Member
  numInGroupMember : Member
  blockLength : Nat
  fields : List F

structure DataOf (F : Type) where
  name : String
  encoding : CompositeOf F
  lengthMember : Member
  varDataMember : Member

inductive KindOf (F : Type) where
  | type (definition : TypeDef)
  | enum (definition : EnumDef)
  | set (definition : SetDef)
  | composite (definition : CompositeOf F)
  | group (definition : GroupOf F)
  | data (definition : DataOf F)

structure Field where
  name : String
  id : UInt16
  /-- From the start of the block; without meaning for groups and data. -/
  offset : Nat
  kind : KindOf Field
  presence : Presence
  constant : Option Constant
  since : UInt16

abbrev CompositeDef := CompositeOf Field

abbrev GroupDef := GroupOf Field

abbrev DataDef := DataOf Field

abbrev Kind := KindOf Field

structure SchemaInfo where
  package : String
  id : UInt16
  version : UInt16
  deriving DecidableEq, Repr

structure MessageDef where
  name : String
  id : UInt16
  blockLength : Nat
  fields : List Field
  schema : SchemaInfo

namespace TypeDef

def plain (name : String) (primitive : Primitive) (length : UInt64) : TypeDef :=
  ⟨name, primitive, length.toNat, none, none, none, length.toNat_lt_size⟩

/-- Bytes that the elements take, however many there are. -/
def extent (t : TypeDef) : Nat :=
  t.primitive.size * t.length

def encodedLength (t : TypeDef) : Nat :=
  wordOf t.extent

def isText (t : TypeDef) : Bool :=
  t.primitive == .char && decide (1 < t.length)

def null (t : TypeDef) : Scalar :=
  t.null?.getD t.primitive.null

def least (t : TypeDef) : Scalar :=
  t.least?.getD t.primitive.least

def greatest (t : TypeDef) : Scalar :=
  t.greatest?.getD t.primitive.greatest

end TypeDef

namespace EnumDef

def defaultNull (encoding : Primitive) : UInt64 :=
  if encoding = .char then 0 else UInt64.ofNat encoding.rawMax

def nameOf? (e : EnumDef) (raw : UInt64) : Option String :=
  (e.values.find? (·.value == raw)).map (·.name)

def valueOf? (e : EnumDef) (name : String) : Option UInt64 :=
  (e.values.find? (·.name == name)).map (·.value)

end EnumDef

def SetDef.choice? (s : SetDef) (name : String) : Option Choice :=
  s.choices.find? (·.name == name)

def DataOf.headerLength {F : Type} (d : DataOf F) : Nat :=
  d.varDataMember.offset

namespace Field

def encodedLength (f : Field) : Nat :=
  if f.presence = .constant then 0
  else match f.kind with
    | .type t => t.encodedLength
    | .enum e => e.encoding.size
    | .set s => s.encoding.size
    | .composite c => c.encodedLength
    | .group _ | .data _ => 0

def inVersion (f : Field) (version : UInt16) : Bool :=
  f.since ≤ version

end Field

end SimpleBinary
