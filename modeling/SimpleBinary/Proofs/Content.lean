import Mathlib.Data.List.Forall2
import SimpleBinary.Proofs.Codec
import SimpleBinary.Proofs.Data
import SimpleBinary.Proofs.Slice

namespace SimpleBinary

/-- What is sent in one field. -/
inductive FieldContent where
  | none
  | value (value : Value)
  | raw (value : UInt64)
  | bits (set : BitSet)
  | members (contents : List FieldContent)
  | elements (contents : List (List FieldContent))
  | payload (bytes : Bytes)

namespace Constant

def raw? : Constant → Option UInt64
  | scalar value => some value.toUInt64
  | text characters =>
    match utf8 characters with
    | [byte] => some byte.toUInt64
    | _ => none

def bits? (encoding : Primitive) : Constant → Option BitSet
  | scalar value => some (.ofBits value.toUInt64.toNat encoding)
  | text _ => none

end Constant

def TypeDef.admits (t : TypeDef) : Value → Prop
  | .scalar s => t.length = 1 ∧ t.primitive.Represents s
  | .text characters => t.isText ∧ 0 ∉ characters ∧ characters.length ≤ t.length
  | .array a => t.length ≠ 1 ∧ t.isText = false ∧ a.primitive = t.primitive ∧
      a.bytes.length = t.extent

def DataOf.elementCount {F : Type} (d : DataOf F) (payload : Bytes) : Nat :=
  payload.length / d.varDataMember.primitive.size

def DataOf.admits {F : Type} (d : DataOf F) (payload : Bytes) : Prop :=
  payload.length % d.varDataMember.primitive.size = 0 ∧
    d.elementCount payload ≤ d.lengthMember.primitive.rawMax

namespace Field

def isFixed : Field → Bool
  | ⟨_, _, _, .group _, _, _, _⟩ | ⟨_, _, _, .data _, _, _, _⟩ => false
  | _ => true

def isStored (f : Field) : Bool :=
  f.isFixed && f.presence != .constant

def extent (f : Field) : Nat :=
  if f.presence = .constant then 0
  else match f.kind with
    | .type t => t.extent
    | .enum e => e.encoding.size
    | .set s => s.encoding.size
    | .composite c => c.encodedLength
    | .group _ | .data _ => 0

end Field

theorem TypeDef.encodedLength_of_le {t : TypeDef} {w : Window} (h : t.extent ≤ w.limit) :
    t.encodedLength = t.extent :=
  Window.wordOf_of_le h

structure LaidOut (fields : List Field) (length : Nat) : Prop where
  inside : ∀ f ∈ fields, f.isStored → f.offset + f.extent ≤ length
  apart : fields.Pairwise fun f g => f.isStored → g.isStored →
    Bytes.Apart f.offset f.extent g.offset g.extent

instance (fields : List Field) (length : Nat) : Decidable (LaidOut fields length) :=
  decidable_of_iff (_ ∧ _) ⟨fun h => ⟨h.1, h.2⟩, fun h => ⟨h.1, h.2⟩⟩

structure GroupOf.WellFormed {F : Type} (g : GroupOf F) : Prop where
  inside : g.MembersInside
  blockLength_unsigned : g.blockLengthMember.primitive.isUnsigned
  numInGroup_unsigned : g.numInGroupMember.primitive.isUnsigned
  apart : Bytes.Apart g.blockLengthMember.offset g.blockLengthMember.primitive.size
    g.numInGroupMember.offset g.numInGroupMember.primitive.size
  blockLength_le : g.blockLength ≤ g.blockLengthMember.primitive.rawMax

instance {F : Type} (g : GroupOf F) : Decidable g.WellFormed :=
  decidable_of_iff (g.MembersInside ∧ _ ∧ _ ∧ _ ∧ _)
    ⟨fun h => ⟨h.1, h.2.1, h.2.2.1, h.2.2.2.1, h.2.2.2.2⟩,
      fun h => ⟨h.inside, h.blockLength_unsigned, h.numInGroup_unsigned, h.apart,
        h.blockLength_le⟩⟩

structure DataOf.WellFormed {F : Type} (d : DataOf F) : Prop where
  inside : d.LengthInside
  length_unsigned : d.lengthMember.primitive.isUnsigned

instance {F : Type} (d : DataOf F) : Decidable d.WellFormed :=
  decidable_of_iff (_ ∧ _) ⟨fun h => ⟨h.1, h.2⟩, fun h => ⟨h.1, h.2⟩⟩

mutual

def Field.wellFormed (version : UInt16) : Field → Bool
  | ⟨_, _, _, .type _, _, _, since⟩ => since ≤ version
  | ⟨_, _, _, .enum e, _, _, since⟩ => since ≤ version && e.encoding.isUnsigned
  | ⟨_, _, _, .set s, _, _, since⟩ => since ≤ version && s.encoding.isUnsigned
  | ⟨_, _, _, .composite c, _, _, since⟩ =>
    since ≤ version && LaidOut c.fields c.encodedLength && c.fields.all Field.isFixed &&
      wellFormedFields version c.fields
  | ⟨_, _, _, .group g, _, _, since⟩ =>
    since ≤ version && g.WellFormed && LaidOut g.fields g.blockLength &&
      wellFormedFields version g.fields
  | ⟨_, _, _, .data d, _, _, since⟩ => since ≤ version && d.WellFormed

def wellFormedFields (version : UInt16) : List Field → Bool
  | [] => true
  | f :: rest => f.wellFormed version && wellFormedFields version rest

end

/-- Whether the schema lays out the message so that its fields do not disturb each other. -/
def MessageDef.wellFormed (m : MessageDef) : Bool :=
  m.blockLength < 2 ^ 16 && LaidOut m.fields m.blockLength &&
    wellFormedFields m.schema.version m.fields

mutual

def Field.admits : Field → FieldContent → Prop
  | ⟨_, _, _, .type t, presence, _, _⟩, .value v => presence ≠ .constant ∧ t.admits v
  | ⟨_, _, _, .enum e, presence, _, _⟩, .raw n =>
    presence ≠ .constant ∧ n.toNat ≤ e.encoding.rawMax
  | ⟨_, _, _, .set s, presence, _, _⟩, .bits set => presence ≠ .constant ∧ set.encoding = s.encoding
  | ⟨_, _, _, .composite c, presence, _, _⟩, .members contents =>
    presence ≠ .constant ∧ admitsFields c.fields contents
  | ⟨_, _, _, .type _, presence, _, _⟩, .none | ⟨_, _, _, .enum _, presence, _, _⟩, .none
  | ⟨_, _, _, .set _, presence, _, _⟩, .none
  | ⟨_, _, _, .composite _, presence, _, _⟩, .none => presence = .constant
  | ⟨_, _, _, .group g, _, _, _⟩, .elements contents =>
    contents.length ≤ g.numInGroupMember.primitive.rawMax ∧
      ∀ element ∈ contents, admitsFields g.fields element
  | ⟨_, _, _, .data d, _, _, _⟩, .payload bytes => d.admits bytes
  | _, _ => False

def admitsFields : List Field → List FieldContent → Prop
  | [], [] => True
  | f :: rest, content :: contents => f.admits content ∧ admitsFields rest contents
  | _, _ => False

end

mutual

def Field.wireLength : Field → FieldContent → Nat
  | ⟨_, _, _, .group g, _, _, _⟩, .elements contents =>
    g.dimension.encodedLength +
      (contents.map fun element => g.blockLength + wireLengthFields g.fields element).sum
  | ⟨_, _, _, .data d, _, _, _⟩, .payload bytes => d.headerLength + bytes.length
  | _, _ => 0

def wireLengthFields : List Field → List FieldContent → Nat
  | f :: rest, content :: contents => f.wireLength content + wireLengthFields rest contents
  | _, _ => 0

end

mutual

/-- Whether a reading at the given version gives the content back, and the constant of a field that
has one. -/
def Field.shows (version : UInt16) : Field → FieldContent → Reading → Prop
  | ⟨name, _, _, .type _, _, constant, _⟩, .none, reading =>
    ∃ present value, reading = .type name present value ∧
      ∀ c, constant = some c → value = .ok c.toValue
  | ⟨name, _, _, .enum e, _, constant, _⟩, .none, reading =>
    ∃ present raw symbol, reading = .enum name present raw symbol ∧
      ∀ c n, constant = some c → c.raw? = some n → raw = .ok n ∧ symbol = .ok (e.nameOf? n)
  | ⟨name, _, _, .set s, _, constant, _⟩, .none, reading =>
    ∃ present bits choices, reading = .set name present bits choices ∧
      ∀ c set, constant = some c → c.bits? s.encoding = some set → bits = .ok set
  | ⟨name, _, _, .composite _, _, _, _⟩, .none, reading =>
    ∃ present members, reading = .composite name present members
  | ⟨name, _, _, .type _, _, _, _⟩, .value v, reading =>
    ∃ present, reading = .type name present (.ok v)
  | ⟨name, _, _, .enum e, _, _, _⟩, .raw n, reading =>
    ∃ present, reading = .enum name present (.ok n) (.ok (e.nameOf? n))
  | ⟨name, _, _, .set s, _, _, _⟩, .bits set, reading =>
    ∃ present, reading = .set name present (.ok set)
      (.ok ((s.choices.filter fun choice => choice.since ≤ version).map
        fun choice => (choice.name, set.contains choice.bit)))
  | ⟨name, _, _, .composite c, _, _, _⟩, .members contents, reading =>
    ∃ present members, reading = .composite name present members ∧
      showsFields version c.fields contents members
  | ⟨name, _, _, .group g, _, _, _⟩, .elements contents, reading =>
    ∃ elements, reading = .group name contents.length g.blockLength elements ∧
      List.Forall₂ (fun content element => ∃ readings, element = .ok readings ∧
        showsFields version g.fields content readings) contents elements
  | ⟨name, _, _, .data d, _, _, _⟩, .payload bytes, reading =>
    reading = .data name (.ok (d.elementCount bytes)) (.ok bytes)
  | _, _, _ => False

def showsFields (version : UInt16) : List Field → List FieldContent → List Reading → Prop
  | [], [], [] => True
  | f :: rest, content :: contents, reading :: readings =>
    f.shows version content reading ∧ showsFields version rest contents readings
  | _, _, _ => False

end

namespace Field

variable {f : Field} {content : FieldContent} {version : UInt16}

theorem isFixed_of_kind (h : ∀ g, f.kind ≠ .group g) (h' : ∀ d, f.kind ≠ .data d) : f.isFixed := by
  obtain ⟨name, id, offset, kind, presence, constant, since⟩ := f
  cases kind with
  | group g => exact absurd rfl (h g)
  | data d => exact absurd rfl (h' d)
  | _ => rfl

theorem isFixed_group {g : GroupDef} (hk : f.kind = .group g) : f.isFixed = false := by
  obtain ⟨name, id, offset, kind, presence, constant, since⟩ := f
  cases hk
  rfl

theorem isFixed_data {d : DataDef} (hk : f.kind = .data d) : f.isFixed = false := by
  obtain ⟨name, id, offset, kind, presence, constant, since⟩ := f
  cases hk
  rfl

theorem isStored_of_fixed (hf : f.isFixed) (hp : f.presence ≠ .constant) : f.isStored :=
  Bool.and_eq_true_iff.mpr ⟨hf, bne_iff_ne.mpr hp⟩

theorem wireLength_of_fixed (hf : f.isFixed) : f.wireLength content = 0 := by
  obtain ⟨name, id, offset, kind, presence, constant, since⟩ := f
  cases kind with
  | group g => cases hf
  | data d => cases hf
  | _ => cases content <;> rfl

section

variable {t : TypeDef} (hk : f.kind = .type t)
include hk

theorem wellFormed_type : f.wellFormed version ↔ f.since ≤ version := by
  obtain ⟨name, id, offset, kind, presence, constant, since⟩ := f
  cases hk
  exact decide_eq_true_iff

theorem admits_type (h : f.admits content) :
    content = .none ∧ f.presence = .constant ∨
      ∃ v, content = .value v ∧ f.presence ≠ .constant ∧ t.admits v := by
  obtain ⟨name, id, offset, kind, presence, constant, since⟩ := f
  cases hk
  cases content with
  | none => exact .inl ⟨rfl, h⟩
  | value v => exact .inr ⟨v, rfl, h⟩
  | _ => cases h

theorem extent_type (hp : f.presence ≠ .constant) : f.extent = t.extent := by
  rw [extent, if_neg hp, hk]

theorem shows_type_constant {present : Except Error Bool} {value : Except Error Value}
    (h : ∀ c, f.constant = some c → value = .ok c.toValue) :
    f.shows version .none (.type f.name present value) := by
  obtain ⟨name, id, offset, kind, presence, constant, since⟩ := f
  cases hk
  exact ⟨present, value, rfl, h⟩

theorem shows_type (present : Except Error Bool) (v : Value) :
    f.shows version (.value v) (.type f.name present (.ok v)) := by
  obtain ⟨name, id, offset, kind, presence, constant, since⟩ := f
  cases hk
  exact ⟨present, rfl⟩

end

section

variable {e : EnumDef} (hk : f.kind = .enum e)
include hk

theorem wellFormed_enum : f.wellFormed version ↔ f.since ≤ version ∧ e.encoding.isUnsigned := by
  obtain ⟨name, id, offset, kind, presence, constant, since⟩ := f
  cases hk
  exact Bool.and_eq_true_iff.trans (and_congr_left' decide_eq_true_iff)

theorem admits_enum (h : f.admits content) :
    content = .none ∧ f.presence = .constant ∨
      ∃ n, content = .raw n ∧ f.presence ≠ .constant ∧ n.toNat ≤ e.encoding.rawMax := by
  obtain ⟨name, id, offset, kind, presence, constant, since⟩ := f
  cases hk
  cases content with
  | none => exact .inl ⟨rfl, h⟩
  | raw n => exact .inr ⟨n, rfl, h⟩
  | _ => cases h

theorem extent_enum (hp : f.presence ≠ .constant) : f.extent = e.encoding.size := by
  rw [extent, if_neg hp, hk]

theorem shows_enum_constant {present : Except Error Bool} {raw : Except Error UInt64}
    {symbol : Except Error (Option String)}
    (h : ∀ c n, f.constant = some c → c.raw? = some n → raw = .ok n ∧ symbol = .ok (e.nameOf? n)) :
    f.shows version .none (.enum f.name present raw symbol) := by
  obtain ⟨name, id, offset, kind, presence, constant, since⟩ := f
  cases hk
  exact ⟨present, raw, symbol, rfl, h⟩

theorem shows_enum (present : Except Error Bool) (n : UInt64) :
    f.shows version (.raw n) (.enum f.name present (.ok n) (.ok (e.nameOf? n))) := by
  obtain ⟨name, id, offset, kind, presence, constant, since⟩ := f
  cases hk
  exact ⟨present, rfl⟩

end

section

variable {s : SetDef} (hk : f.kind = .set s)
include hk

theorem wellFormed_set : f.wellFormed version ↔ f.since ≤ version ∧ s.encoding.isUnsigned := by
  obtain ⟨name, id, offset, kind, presence, constant, since⟩ := f
  cases hk
  exact Bool.and_eq_true_iff.trans (and_congr_left' decide_eq_true_iff)

theorem admits_set (h : f.admits content) :
    content = .none ∧ f.presence = .constant ∨
      ∃ set, content = .bits set ∧ f.presence ≠ .constant ∧ set.encoding = s.encoding := by
  obtain ⟨name, id, offset, kind, presence, constant, since⟩ := f
  cases hk
  cases content with
  | none => exact .inl ⟨rfl, h⟩
  | bits set => exact .inr ⟨set, rfl, h⟩
  | _ => cases h

theorem extent_set (hp : f.presence ≠ .constant) : f.extent = s.encoding.size := by
  rw [extent, if_neg hp, hk]

theorem shows_set_constant {present : Except Error Bool} {bits : Except Error BitSet}
    {choices : Except Error (List (String × Bool))}
    (h : ∀ c set, f.constant = some c → c.bits? s.encoding = some set → bits = .ok set) :
    f.shows version .none (.set f.name present bits choices) := by
  obtain ⟨name, id, offset, kind, presence, constant, since⟩ := f
  cases hk
  exact ⟨present, bits, choices, rfl, h⟩

theorem shows_set (present : Except Error Bool) (set : BitSet) :
    f.shows version (.bits set) (.set f.name present (.ok set) (.ok ((s.choices.filter
      fun choice => choice.since ≤ version).map
        fun choice => (choice.name, set.contains choice.bit)))) := by
  obtain ⟨name, id, offset, kind, presence, constant, since⟩ := f
  cases hk
  exact ⟨present, rfl⟩

end

section

variable {c : CompositeDef} (hk : f.kind = .composite c)
include hk

theorem wellFormed_composite :
    f.wellFormed version ↔ f.since ≤ version ∧ LaidOut c.fields c.encodedLength ∧
      (∀ member ∈ c.fields, member.isFixed) ∧ wellFormedFields version c.fields := by
  obtain ⟨name, id, offset, kind, presence, constant, since⟩ := f
  cases hk
  simp only [wellFormed, Bool.and_eq_true, decide_eq_true_eq, List.all_eq_true, and_assoc]

theorem admits_composite (h : f.admits content) :
    content = .none ∧ f.presence = .constant ∨
      ∃ contents, content = .members contents ∧ f.presence ≠ .constant ∧
        admitsFields c.fields contents := by
  obtain ⟨name, id, offset, kind, presence, constant, since⟩ := f
  cases hk
  cases content with
  | none => exact .inl ⟨rfl, h⟩
  | members contents => exact .inr ⟨contents, rfl, h⟩
  | _ => cases h

theorem extent_composite (hp : f.presence ≠ .constant) :
    f.extent = c.encodedLength := by
  rw [extent, if_neg hp, hk]

theorem shows_composite_constant (present : Except Error Bool) (members : List Reading) :
    f.shows version .none (.composite f.name present members) := by
  obtain ⟨name, id, offset, kind, presence, constant, since⟩ := f
  cases hk
  exact ⟨present, members, rfl⟩

theorem shows_composite {contents : List FieldContent} {members : List Reading}
    (h : showsFields version c.fields contents members) (present : Except Error Bool) :
    f.shows version (.members contents) (.composite f.name present members) := by
  obtain ⟨name, id, offset, kind, presence, constant, since⟩ := f
  cases hk
  exact ⟨present, members, rfl, h⟩

end

section

variable {g : GroupDef} (hk : f.kind = .group g)
include hk

theorem wellFormed_group :
    f.wellFormed version ↔ f.since ≤ version ∧ g.WellFormed ∧ LaidOut g.fields g.blockLength ∧
      wellFormedFields version g.fields := by
  obtain ⟨name, id, offset, kind, presence, constant, since⟩ := f
  cases hk
  simp only [wellFormed, Bool.and_eq_true, decide_eq_true_eq, and_assoc]

theorem admits_group (h : f.admits content) :
    ∃ contents, content = .elements contents ∧
      contents.length ≤ g.numInGroupMember.primitive.rawMax ∧
      ∀ element ∈ contents, admitsFields g.fields element := by
  obtain ⟨name, id, offset, kind, presence, constant, since⟩ := f
  cases hk
  cases content with
  | elements contents => exact ⟨contents, rfl, h⟩
  | _ => cases h

theorem wireLength_group (contents : List (List FieldContent)) :
    f.wireLength (.elements contents) = g.dimension.encodedLength +
      (contents.map fun element => g.blockLength + wireLengthFields g.fields element).sum := by
  obtain ⟨name, id, offset, kind, presence, constant, since⟩ := f
  cases hk
  rfl

theorem shows_group {contents : List (List FieldContent)}
    {elements : List (Except Error (List Reading))}
    (h : List.Forall₂ (fun content element => ∃ readings, element = .ok readings ∧
      showsFields version g.fields content readings) contents elements) :
    f.shows version (.elements contents)
      (.group f.name contents.length g.blockLength elements) := by
  obtain ⟨name, id, offset, kind, presence, constant, since⟩ := f
  cases hk
  exact ⟨elements, rfl, h⟩

end

section

variable {d : DataDef} (hk : f.kind = .data d)
include hk

theorem wellFormed_data : f.wellFormed version ↔ f.since ≤ version ∧ d.WellFormed := by
  obtain ⟨name, id, offset, kind, presence, constant, since⟩ := f
  cases hk
  simp only [wellFormed, Bool.and_eq_true, decide_eq_true_eq]

theorem admits_data (h : f.admits content) :
    ∃ bytes, content = .payload bytes ∧ d.admits bytes := by
  obtain ⟨name, id, offset, kind, presence, constant, since⟩ := f
  cases hk
  cases content with
  | payload bytes => exact ⟨bytes, rfl, h⟩
  | _ => cases h

theorem wireLength_data (bytes : Bytes) :
    f.wireLength (.payload bytes) = d.headerLength + bytes.length := by
  obtain ⟨name, id, offset, kind, presence, constant, since⟩ := f
  cases hk
  rfl

theorem shows_data (bytes : Bytes) :
    f.shows version (.payload bytes) (.data f.name (.ok (d.elementCount bytes)) (.ok bytes)) := by
  obtain ⟨name, id, offset, kind, presence, constant, since⟩ := f
  cases hk
  rfl

end

end Field

theorem MessageDef.wellFormed_iff {m : MessageDef} :
    m.wellFormed ↔ m.blockLength < 2 ^ 16 ∧ LaidOut m.fields m.blockLength ∧
      wellFormedFields m.schema.version m.fields := by
  simp only [MessageDef.wellFormed, Bool.and_eq_true, decide_eq_true_eq, and_assoc]

theorem wellFormedFields_cons {version : UInt16} {f : Field} {rest : List Field} :
    wellFormedFields version (f :: rest) ↔ f.wellFormed version ∧ wellFormedFields version rest :=
  Bool.and_eq_true_iff

end SimpleBinary
