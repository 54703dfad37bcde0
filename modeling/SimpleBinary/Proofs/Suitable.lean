import SimpleBinary.Proofs.Agreement
import SimpleBinary.Proofs.Content
import SimpleBinary.Proofs.Spans

namespace SimpleBinary

namespace Field

def ConstantSuits (f : Field) : Prop :=
  f.presence = .constant → match f.kind with
    | .type _ => ∃ c, f.constant = some c
    | .enum _ => ∃ c n, f.constant = some c ∧ c.raw? = some n
    | .set s => ∃ c set, f.constant = some c ∧ c.bits? s.encoding = some set
    | .composite _ | .group _ | .data _ => True

end Field

mutual

def Field.ConstantsSuit : Field → Prop
  | ⟨_, _, _, .composite c, _, _, _⟩ => ConstantsSuitFields c.fields
  | ⟨_, _, _, .group g, _, _, _⟩ => ConstantsSuitFields g.fields
  | f => f.ConstantSuits

def ConstantsSuitFields : List Field → Prop
  | [] => True
  | f :: rest => f.ConstantsSuit ∧ ConstantsSuitFields rest

end

namespace Field

variable {f : Field}

theorem ConstantsSuit.type {t : TypeDef} (h : f.ConstantsSuit) (hk : f.kind = .type t) :
    f.ConstantSuits := by
  obtain ⟨name, id, offset, kind, presence, constant, since⟩ := f
  cases hk
  exact h

theorem ConstantsSuit.enum {e : EnumDef} (h : f.ConstantsSuit) (hk : f.kind = .enum e) :
    f.ConstantSuits := by
  obtain ⟨name, id, offset, kind, presence, constant, since⟩ := f
  cases hk
  exact h

theorem ConstantsSuit.set {s : SetDef} (h : f.ConstantsSuit) (hk : f.kind = .set s) :
    f.ConstantSuits := by
  obtain ⟨name, id, offset, kind, presence, constant, since⟩ := f
  cases hk
  exact h

theorem ConstantsSuit.composite {c : CompositeDef} (h : f.ConstantsSuit)
    (hk : f.kind = .composite c) : ConstantsSuitFields c.fields := by
  obtain ⟨name, id, offset, kind, presence, constant, since⟩ := f
  cases hk
  exact h

theorem ConstantsSuit.group {g : GroupDef} (h : f.ConstantsSuit) (hk : f.kind = .group g) :
    ConstantsSuitFields g.fields := by
  obtain ⟨name, id, offset, kind, presence, constant, since⟩ := f
  cases hk
  exact h

end Field

inductive Reading.Safe : Reading → Prop
  | unreachable {reason : Error} (h : reason.IsShort) : Safe (.unreachable reason)
  | type {name : String} {present : Except Error Bool} {value : Except Error Value}
      (hpresent : OkOrShort present) (hvalue : OkOrShort value) : Safe (.type name present value)
  | enum {name : String} {present : Except Error Bool} {raw : Except Error UInt64}
      {symbol : Except Error (Option String)} (hpresent : OkOrShort present)
      (hraw : OkOrShort raw) (hsymbol : OkOrShort symbol) : Safe (.enum name present raw symbol)
  | set {name : String} {present : Except Error Bool} {bits : Except Error BitSet}
      {choices : Except Error (List (String × Bool))} (hpresent : OkOrShort present)
      (hbits : OkOrShort bits) (hchoices : OkOrShort choices) :
      Safe (.set name present bits choices)
  | composite {name : String} {present : Except Error Bool} {members : List Reading}
      (hpresent : OkOrShort present) (hmembers : ∀ reading ∈ members, Safe reading) :
      Safe (.composite name present members)
  | group {name : String} {count blockLength : Nat} {elements : List (Except Error (List Reading))}
      (hvisit : ∀ element ∈ elements, OkOrShort element)
      (helements : ∀ readings, .ok readings ∈ elements → ∀ reading ∈ readings, Safe reading) :
      Safe (.group name count blockLength elements)
  | data {name : String} {length : Except Error Nat} {value : Except Error Bytes}
      (hlength : OkOrShort length) (hvalue : OkOrShort value) : Safe (.data name length value)

def SafeReadings (readings : List Reading) : Prop :=
  ∀ reading ∈ readings, reading.Safe

def SafeElements (elements : List (Except Error (List Reading))) : Prop :=
  ∀ element ∈ elements, OkOrShort element ∧ ∀ readings, element = .ok readings →
    SafeReadings readings

end SimpleBinary
