import SimpleBinary.Proofs.Absence
import SimpleBinary.Proofs.JsonValues
import SimpleBinary.Proofs.Readings

namespace SimpleBinary

open JsonValues

variable {J : Type} [JsonValues J]

def TypeDef.isAbsent (t : TypeDef) : Value → Bool
  | .scalar s => t.primitive.equal s t.null
  | .text characters => characters.isEmpty
  | .array _ => false

def EnumDef.jsonOf (e : EnumDef) (n : UInt64) : J :=
  match e.nameOf? n with
  | some name => string name
  | none => ofUInt64 n

def SetDef.jsonOf (s : SetDef) (set : BitSet) : J :=
  array ((s.choices.filter fun choice => set.contains choice.bit).map Choice.nameJson)

mutual

def Field.jsonOf : Field → FieldContent → J
  | ⟨_, _, _, .type t, presence, _, _⟩, .value v =>
    if presence = .optional ∧ t.isAbsent v then null else v.toJson
  | ⟨_, _, _, .type _, _, some c, _⟩, .none => c.toValue.toJson
  | ⟨_, _, _, .enum e, presence, _, _⟩, .raw n =>
    if presence = .optional ∧ n = e.null then null else e.jsonOf n
  | ⟨_, _, _, .set s, _, _, _⟩, .bits set => s.jsonOf set
  | ⟨_, _, _, .composite c, _, _, _⟩, .members contents => object (membersOf c.fields contents)
  | ⟨_, _, _, .group g, _, _, _⟩, .elements contents =>
    array (contents.map fun element => object (membersOf g.fields element))
  | ⟨_, _, _, .data _, _, _, _⟩, .payload bytes => string (Utf8.decodeLossy bytes)
  | _, _ => null

def membersOf : List Field → List FieldContent → List (String × J)
  | f :: rest, content :: contents => (f.name, f.jsonOf content) :: membersOf rest contents
  | _, _ => []

end

mutual

def Field.legible : Field → FieldContent → Prop
  | ⟨_, _, _, .type _, _, _, _⟩, .value (.text characters) => (Utf8.decode? characters).isSome
  | ⟨_, _, _, .composite c, _, _, _⟩, .members contents => legibleFields c.fields contents
  | ⟨_, _, _, .group g, _, _, _⟩, .elements contents =>
    ∀ element ∈ contents, legibleFields g.fields element
  | ⟨_, _, _, .data _, _, _, _⟩, .payload bytes => (Utf8.decode? bytes).isSome
  | _, _ => True

def legibleFields : List Field → List FieldContent → Prop
  | f :: rest, content :: contents => f.legible content ∧ legibleFields rest contents
  | _, _ => True

end

mutual

def Reading.legible : Reading → Bool
  | .type _ _ (.ok (.text characters)) => (Utf8.decode? characters).isSome
  | .composite _ _ members => legibleReadings members
  | .group _ _ _ elements => legibleElements elements
  | .data _ _ (.ok bytes) => (Utf8.decode? bytes).isSome
  | _ => true

def legibleReadings : List Reading → Bool
  | [] => true
  | reading :: rest => reading.legible && legibleReadings rest

def legibleElements : List (Except Error (List Reading)) → Bool
  | [] => true
  | .ok readings :: rest => legibleReadings readings && legibleElements rest
  | .error _ :: rest => legibleElements rest

end

def Constant.portable (p : Primitive) : Constant → Bool
  | .scalar s => p.decode (p.encode s) == s
  | .text characters => (Utf8.decode? (utf8 characters)).isSome

def TypeDef.nullable (t : TypeDef) : Bool :=
  (t.length == 1 && t.primitive.decode (t.primitive.encode t.null) == t.null) ||
    (t.isText && t.null == .uint 0)

theorem TypeDef.extent_lt_of_nullable {t : TypeDef} (h : t.nullable) :
    t.extent < UInt64.size := by
  rcases Bool.or_eq_true_iff.mp h with hone | hzero
  · have hlength := beq_iff_eq.mp (Bool.and_eq_true_iff.mp hone).1
    rw [extent, hlength, Nat.mul_one]
    cases t.primitive <;> decide
  · rw [extent_of_isText (Bool.and_eq_true_iff.mp hzero).1]
    exact t.length_lt

mutual

/-- Whether JSON carries every content of the field, from whatever version. -/
def Field.portable : Field → Bool
  | ⟨_, _, _, .type t, presence, constant, since⟩ =>
    !t.primitive.isFloat && t.extent < UInt64.size && match presence with
      | .required => since == 0
      | .optional => t.nullable
      | .constant => since == 0 && constant.any (Constant.portable t.primitive)
  | ⟨_, _, _, .enum e, presence, _, since⟩ =>
    e.values.all (fun v => e.valueOf? v.name == some v.value) && match presence with
      | .required => since == 0
      | .optional => e.null.toNat ≤ e.encoding.rawMax
      | .constant => false
  | ⟨_, _, _, .set s, presence, _, _⟩ => presence != .constant && s.Named
  | ⟨_, _, _, .composite c, presence, _, since⟩ =>
    presence != .constant && since == 0 && (c.fields.map Field.name).Nodup &&
      portableFields c.fields
  | ⟨_, _, _, .group g, _, _, _⟩ => (g.fields.map Field.name).Nodup && portableFields g.fields
  | ⟨_, _, _, .data _, _, _, _⟩ => true

def portableFields : List Field → Bool
  | [] => true
  | f :: rest => f.portable && portableFields rest

end

def MessageDef.portable (m : MessageDef) : Bool :=
  (m.fields.map Field.name).Nodup && portableFields m.fields

namespace Field

variable {f : Field} {content : FieldContent}

section

variable {t : TypeDef} (hk : f.kind = .type t)
include hk

theorem jsonOf_type (v : Value) :
    (f.jsonOf (.value v) : J) =
      if f.presence = .optional ∧ t.isAbsent v then null else v.toJson := by
  obtain ⟨name, id, offset, kind, presence, constant, since⟩ := f
  cases hk
  rfl

theorem jsonOf_constant {c : Constant} (hc : f.constant = some c) :
    (f.jsonOf .none : J) = c.toValue.toJson := by
  obtain ⟨name, id, offset, kind, presence, constant, since⟩ := f
  cases hk
  cases hc
  rfl

theorem legible_text {characters : Bytes} :
    f.legible (.value (.text characters)) ↔ (Utf8.decode? characters).isSome := by
  obtain ⟨name, id, offset, kind, presence, constant, since⟩ := f
  cases hk
  rfl

theorem extent_lt_of_portable (h : f.portable) : t.extent < UInt64.size := by
  obtain ⟨name, id, offset, kind, presence, constant, since⟩ := f
  cases hk
  obtain ⟨h, -⟩ := Bool.and_eq_true_iff.mp h
  exact of_decide_eq_true (Bool.and_eq_true_iff.mp h).2

theorem portable_type (h : f.portable) :
    t.primitive.isFloat = false ∧ (f.presence ≠ .optional → f.since = 0) ∧
      (f.presence = .optional → t.nullable) ∧
      (f.presence = .constant → ∃ c, f.constant = some c ∧ c.portable t.primitive) := by
  obtain ⟨name, id, offset, kind, presence, constant, since⟩ := f
  cases hk
  obtain ⟨hwhole, h⟩ := Bool.and_eq_true_iff.mp h
  obtain ⟨hfloat, -⟩ := Bool.and_eq_true_iff.mp hwhole
  rw [Bool.not_eq_true'] at hfloat
  cases presence with
  | required => exact ⟨hfloat, fun _ => beq_iff_eq.mp h, nofun, nofun⟩
  | optional => exact ⟨hfloat, fun hp => absurd rfl hp, fun _ => h, nofun⟩
  | constant =>
    obtain ⟨hsince, hc⟩ := Bool.and_eq_true_iff.mp h
    cases constant with
    | none => cases hc
    | some c => exact ⟨hfloat, fun _ => beq_iff_eq.mp hsince, nofun, fun _ => ⟨c, rfl, hc⟩⟩

end

section

variable {e : EnumDef} (hk : f.kind = .enum e)
include hk

theorem jsonOf_enum (n : UInt64) :
    (f.jsonOf (.raw n) : J) =
      if f.presence = .optional ∧ n = e.null then null else e.jsonOf n := by
  obtain ⟨name, id, offset, kind, presence, constant, since⟩ := f
  cases hk
  rfl

theorem portable_enum (h : f.portable) :
    (∀ v ∈ e.values, e.valueOf? v.name = some v.value) ∧ f.presence ≠ .constant ∧
      (f.presence ≠ .optional → f.since = 0) ∧
      (f.presence = .optional → e.null.toNat ≤ e.encoding.rawMax) := by
  obtain ⟨name, id, offset, kind, presence, constant, since⟩ := f
  cases hk
  obtain ⟨hnames, h⟩ := Bool.and_eq_true_iff.mp h
  have hfound : ∀ v ∈ e.values, e.valueOf? v.name = some v.value :=
    fun v hv => beq_iff_eq.mp (List.all_eq_true.mp hnames v hv)
  cases presence with
  | required => exact ⟨hfound, nofun, fun _ => beq_iff_eq.mp h, nofun⟩
  | optional => exact ⟨hfound, nofun, fun hp => absurd rfl hp, fun _ => of_decide_eq_true h⟩
  | constant => cases h

end

section

variable {s : SetDef} (hk : f.kind = .set s)
include hk

theorem jsonOf_set (set : BitSet) : (f.jsonOf (.bits set) : J) = s.jsonOf set := by
  obtain ⟨name, id, offset, kind, presence, constant, since⟩ := f
  cases hk
  rfl

theorem portable_set : f.portable ↔ f.presence ≠ .constant ∧ s.Named := by
  obtain ⟨name, id, offset, kind, presence, constant, since⟩ := f
  cases hk
  simp only [portable, Bool.and_eq_true, bne_iff_ne, decide_eq_true_eq]

end

section

variable {c : CompositeDef} (hk : f.kind = .composite c)
include hk

theorem jsonOf_composite (contents : List FieldContent) :
    (f.jsonOf (.members contents) : J) = object (membersOf c.fields contents) := by
  obtain ⟨name, id, offset, kind, presence, constant, since⟩ := f
  cases hk
  rfl

theorem legible_composite {contents : List FieldContent} :
    f.legible (.members contents) ↔ legibleFields c.fields contents := by
  obtain ⟨name, id, offset, kind, presence, constant, since⟩ := f
  cases hk
  rfl

theorem portable_composite :
    f.portable ↔ f.presence ≠ .constant ∧ f.since = 0 ∧ (c.fields.map Field.name).Nodup ∧
      portableFields c.fields := by
  obtain ⟨name, id, offset, kind, presence, constant, since⟩ := f
  cases hk
  simp only [portable, Bool.and_eq_true, bne_iff_ne, beq_iff_eq, decide_eq_true_eq, and_assoc]

end

section

variable {g : GroupDef} (hk : f.kind = .group g)
include hk

theorem jsonOf_group (contents : List (List FieldContent)) :
    (f.jsonOf (.elements contents) : J) =
      array (contents.map fun element => object (membersOf g.fields element)) := by
  obtain ⟨name, id, offset, kind, presence, constant, since⟩ := f
  cases hk
  rfl

theorem legible_group {contents : List (List FieldContent)} :
    f.legible (.elements contents) ↔ ∀ element ∈ contents, legibleFields g.fields element := by
  obtain ⟨name, id, offset, kind, presence, constant, since⟩ := f
  cases hk
  rfl

theorem portable_group :
    f.portable ↔ (g.fields.map Field.name).Nodup ∧ portableFields g.fields := by
  obtain ⟨name, id, offset, kind, presence, constant, since⟩ := f
  cases hk
  simp only [portable, Bool.and_eq_true, decide_eq_true_eq]

end

section

variable {d : DataDef} (hk : f.kind = .data d)
include hk

theorem jsonOf_data (bytes : Bytes) :
    (f.jsonOf (.payload bytes) : J) = string (Utf8.decodeLossy bytes) := by
  obtain ⟨name, id, offset, kind, presence, constant, since⟩ := f
  cases hk
  rfl

theorem legible_data {bytes : Bytes} :
    f.legible (.payload bytes) ↔ (Utf8.decode? bytes).isSome := by
  obtain ⟨name, id, offset, kind, presence, constant, since⟩ := f
  cases hk
  rfl

end

end Field

theorem MessageDef.portable_iff {m : MessageDef} :
    m.portable ↔ (m.fields.map Field.name).Nodup ∧ portableFields m.fields := by
  simp only [MessageDef.portable, Bool.and_eq_true, decide_eq_true_eq]

theorem portableFields_cons {f : Field} {rest : List Field} :
    portableFields (f :: rest) ↔ f.portable ∧ portableFields rest :=
  Bool.and_eq_true_iff

theorem names_membersOf {fields : List Field} {contents : List FieldContent}
    (h : admitsFields fields contents) :
    (membersOf fields contents : List (String × J)).map Prod.fst = fields.map Field.name := by
  induction fields generalizing contents with
  | nil =>
    cases contents with
    | nil => rfl
    | cons content contents => cases h
  | cons f rest ih =>
    cases contents with
    | nil => cases h
    | cons content contents => rw [membersOf, List.map_cons, List.map_cons, ih h.2]

end SimpleBinary
