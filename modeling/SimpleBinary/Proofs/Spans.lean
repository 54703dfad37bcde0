import SimpleBinary.Proofs.Tables

namespace SimpleBinary

mutual

/-- The greatest distance, in bytes, from a place in a message or an element to where a schema
offset of the field reaches, and the greatest length of a fixed field. -/
def Field.span : Field → Nat
  | ⟨_, _, offset, .type t, _, _, _⟩ => offset + t.extent
  | ⟨_, _, offset, .enum _, _, _, _⟩ | ⟨_, _, offset, .set _, _, _, _⟩ => offset
  | ⟨_, _, offset, .composite c, _, _, _⟩ => offset + spanFields c.fields
  | ⟨_, _, offset, .group g, _, _, _⟩ =>
    max (max offset (spanFields g.fields))
      (max g.blockLengthMember.offset g.numInGroupMember.offset)
  | ⟨_, _, offset, .data d, _, _, _⟩ => max offset (max d.lengthMember.offset d.headerLength)

def spanFields : List Field → Nat
  | [] => 0
  | f :: rest => max f.span (spanFields rest)

end

def GroupOf.span (g : GroupDef) : Nat :=
  max (spanFields g.fields) (max g.blockLengthMember.offset g.numInGroupMember.offset)

def DataOf.span {F : Type} (d : DataOf F) : Nat :=
  max d.lengthMember.offset d.headerLength

def Field.reach (f : Field) : Nat :=
  f.span - f.offset

theorem span_le_spanFields {f : Field} {fields : List Field} (h : f ∈ fields) :
    f.span ≤ spanFields fields := by
  induction fields with
  | nil => cases h
  | cons g rest ih =>
    rcases List.mem_cons.mp h with rfl | hrest
    · exact Nat.le_max_left _ _
    · exact Nat.le_trans (ih hrest) (Nat.le_max_right _ _)

namespace Field

variable {f : Field}

theorem offset_le_span (f : Field) : f.offset ≤ f.span := by
  obtain ⟨name, id, offset, kind, presence, constant, since⟩ := f
  cases kind <;> simp only [span] <;> omega

theorem offset_add_reach (f : Field) : f.offset + f.reach = f.span :=
  Nat.add_sub_of_le f.offset_le_span

theorem span_type {t : TypeDef} (hk : f.kind = .type t) : f.span = f.offset + t.extent := by
  obtain ⟨name, id, offset, kind, presence, constant, since⟩ := f
  cases hk
  rfl

theorem span_composite {c : CompositeDef} (hk : f.kind = .composite c) :
    f.span = f.offset + spanFields c.fields := by
  obtain ⟨name, id, offset, kind, presence, constant, since⟩ := f
  cases hk
  rfl

theorem span_group {g : GroupDef} (hk : f.kind = .group g) :
    f.span = max (max f.offset (spanFields g.fields))
      (max g.blockLengthMember.offset g.numInGroupMember.offset) := by
  obtain ⟨name, id, offset, kind, presence, constant, since⟩ := f
  cases hk
  rfl

theorem span_data {d : DataDef} (hk : f.kind = .data d) :
    f.span = max f.offset (max d.lengthMember.offset d.headerLength) := by
  obtain ⟨name, id, offset, kind, presence, constant, since⟩ := f
  cases hk
  rfl

theorem reach_type {t : TypeDef} (hk : f.kind = .type t) : f.reach = t.extent := by
  rw [reach, span_type hk, Nat.add_sub_cancel_left]

theorem reach_composite {c : CompositeDef} (hk : f.kind = .composite c) :
    f.reach = spanFields c.fields := by
  rw [reach, span_composite hk, Nat.add_sub_cancel_left]

theorem member_span_le {c : CompositeDef} (hk : f.kind = .composite c) {m : Field}
    (hm : m ∈ c.fields) : m.span ≤ f.reach := by
  rw [reach_composite hk]
  exact span_le_spanFields hm

theorem wordOf_member {c : CompositeDef} (hk : f.kind = .composite c) {m : Field}
    (hm : m ∈ c.fields) {offset : Nat} (hword : offset + f.reach < UInt64.size) :
    wordOf (offset + m.offset) = offset + m.offset ∧
      offset + m.offset + m.reach < UInt64.size := by
  have hspan := member_span_le hk hm
  have hreach := m.offset_add_reach
  exact ⟨wordOf_of_lt (by omega), by omega⟩

theorem group_span_le {g : GroupDef} (hk : f.kind = .group g) : g.span ≤ f.span := by
  rw [span_group hk, GroupOf.span]
  omega

theorem data_span_le {d : DataDef} (hk : f.kind = .data d) : d.span ≤ f.span := by
  rw [span_data hk, DataOf.span]
  omega

end Field

theorem Field.bindAt_of_span {f : Field} {base : Nat} (h : base + f.span < UInt64.size)
    (enclosed : Bool) (version : UInt16) :
    f.bindAt base enclosed version = ⟨f, base + f.offset, enclosed && f.inVersion version⟩ := by
  have hoffset := f.offset_le_span
  rw [bindAt, wordOf_of_lt (by omega)]

end SimpleBinary
