import SimpleBinary.Proofs.Fixed
import SimpleBinary.Proofs.Presence
import SimpleBinary.Proofs.Regular

namespace SimpleBinary

def TypeDef.readLength (t : TypeDef) (presence : Presence) : Nat :=
  if presence = .optional then max t.extent t.primitive.size else t.extent

theorem TypeDef.extent_le_readLength (t : TypeDef) (presence : Presence) :
    t.extent ≤ t.readLength presence := by
  unfold readLength
  split
  · exact Nat.le_max_left _ _
  · exact Nat.le_refl _

theorem TypeDef.encodedLength_le_readLength (t : TypeDef) (presence : Presence) :
    t.encodedLength ≤ t.readLength presence :=
  Nat.le_trans (wordOf_le t.extent) (t.extent_le_readLength presence)

mutual

/-- Whether the fixed field, in a block or in a composite at `start` of one, is read from the first
`length` bytes of the block, if it is of the version. -/
def Field.InBlock (version : UInt16) (length : Nat) : Field → Nat → Prop
  | ⟨_, _, offset, .type t, presence, _, since⟩, start =>
    since ≤ version → presence ≠ .constant → start + offset + t.readLength presence ≤ length
  | ⟨_, _, offset, .enum e, presence, _, since⟩, start =>
    since ≤ version → presence ≠ .constant → start + offset + e.encoding.size ≤ length
  | ⟨_, _, offset, .set s, presence, _, since⟩, start =>
    since ≤ version → presence ≠ .constant → start + offset + s.encoding.size ≤ length
  | ⟨_, _, offset, .composite c, _, _, since⟩, start =>
    since ≤ version → InBlockFields version length c.fields (start + offset)
  | ⟨_, _, _, .group _, _, _, _⟩, _ | ⟨_, _, _, .data _, _, _, _⟩, _ => True

def InBlockFields (version : UInt16) (length : Nat) : List Field → Nat → Prop
  | [], _ => True
  | f :: rest, start => f.InBlock version length start ∧ InBlockFields version length rest start

end

mutual

def Field.decidableInBlock (version : UInt16) (length : Nat) :
    (f : Field) → (start : Nat) → Decidable (f.InBlock version length start)
  | ⟨_, _, offset, .type t, presence, _, since⟩, start =>
    inferInstanceAs (Decidable
      (since ≤ version → presence ≠ .constant → start + offset + t.readLength presence ≤ length))
  | ⟨_, _, offset, .enum e, presence, _, since⟩, start =>
    inferInstanceAs (Decidable
      (since ≤ version → presence ≠ .constant → start + offset + e.encoding.size ≤ length))
  | ⟨_, _, offset, .set s, presence, _, since⟩, start =>
    inferInstanceAs (Decidable
      (since ≤ version → presence ≠ .constant → start + offset + s.encoding.size ≤ length))
  | ⟨_, _, offset, .composite c, _, _, since⟩, start =>
    have := decidableInBlockFields version length c.fields (start + offset)
    inferInstanceAs (Decidable
      (since ≤ version → InBlockFields version length c.fields (start + offset)))
  | ⟨_, _, _, .group _, _, _, _⟩, _ | ⟨_, _, _, .data _, _, _, _⟩, _ => .isTrue trivial

def decidableInBlockFields (version : UInt16) (length : Nat) :
    (fields : List Field) → (start : Nat) → Decidable (InBlockFields version length fields start)
  | [], _ => .isTrue trivial
  | f :: rest, start =>
    have := f.decidableInBlock version length start
    have := decidableInBlockFields version length rest start
    inferInstanceAs (Decidable (_ ∧ _))

end

instance (version : UInt16) (length : Nat) (fields : List Field) (start : Nat) :
    Decidable (InBlockFields version length fields start) :=
  decidableInBlockFields version length fields start

structure SameBlock (w w' : Window) (base base' length : Nat) : Prop where
  version_eq : w'.version = w.version
  read_eq (start size : Nat) (h : start + size ≤ length) :
    w'.read (base' + start) size = w.read (base + start) size
  stop_lt : base + length < UInt64.size
  stop_lt' : base' + length < UInt64.size

namespace Field

variable {f : Field} {version : UInt16} {length start : Nat}

theorem inBlock_type {t : TypeDef} (hk : f.kind = .type t) :
    f.InBlock version length start ↔
      (f.since ≤ version → f.presence ≠ .constant →
        start + f.offset + t.readLength f.presence ≤ length) := by
  obtain ⟨name, id, offset, kind, presence, constant, since⟩ := f
  cases hk
  rfl

theorem inBlock_enum {e : EnumDef} (hk : f.kind = .enum e) :
    f.InBlock version length start ↔
      (f.since ≤ version → f.presence ≠ .constant →
        start + f.offset + e.encoding.size ≤ length) := by
  obtain ⟨name, id, offset, kind, presence, constant, since⟩ := f
  cases hk
  rfl

theorem inBlock_set {s : SetDef} (hk : f.kind = .set s) :
    f.InBlock version length start ↔
      (f.since ≤ version → f.presence ≠ .constant →
        start + f.offset + s.encoding.size ≤ length) := by
  obtain ⟨name, id, offset, kind, presence, constant, since⟩ := f
  cases hk
  rfl

theorem inBlock_composite {c : CompositeDef} (hk : f.kind = .composite c) :
    f.InBlock version length start ↔
      (f.since ≤ version → InBlockFields version length c.fields (start + f.offset)) := by
  obtain ⟨name, id, offset, kind, presence, constant, since⟩ := f
  cases hk
  rfl

end Field

namespace Binding

variable {f : Field} {start start' : Nat} {visible : Bool} {w w' : Window}

theorem value_congr {t : TypeDef} (hk : f.kind = .type t)
    (hr : visible → f.presence ≠ .constant →
      w'.read start' t.encodedLength = w.read start t.encodedLength) :
    value ⟨f, start', visible⟩ w' = value ⟨f, start, visible⟩ w := by
  simp only [value, typeDef, hk, Action.ok_bind, constant?]
  by_cases hp : f.presence = .constant
  · simp only [if_pos hp]
    cases f.constant <;> rfl
  · simp only [if_neg hp, Action.ok_bind]
    cases visible with
    | false => rfl
    | true =>
      have hread := hr rfl hp
      by_cases hlength : t.length = 1
      · have hsize : t.encodedLength = t.primitive.size := by
          rw [TypeDef.encodedLength, TypeDef.extent, hlength, Nat.mul_one,
            wordOf_of_lt t.primitive.size_lt]
        simp only [hlength, if_true, Window.readScalar, ← hsize, hread]
      · simp only [hlength, if_false, if_true, hread]

theorem enumRaw_congr {e : EnumDef} (hk : f.kind = .enum e)
    (hr : visible → f.presence ≠ .constant →
      w'.readScalar start' e.encoding = w.readScalar start e.encoding) :
    enumRaw ⟨f, start', visible⟩ w' = enumRaw ⟨f, start, visible⟩ w := by
  by_cases hp : f.presence = .constant
  · simp only [enumRaw, enumDef, hk, Action.ok_bind, constantRaw?, constant?, if_pos hp]
    rcases f.constant with _ | ⟨value⟩ | ⟨characters⟩
    · rfl
    · rfl
    · simp only [Action.ok_bind]
      generalize utf8 characters = bytes
      rcases bytes with _ | ⟨byte, _ | ⟨_, _⟩⟩ <;> rfl
  · have hraw : constantRaw? ⟨f, start, visible⟩ = .ok none := constantRaw?_of_stored hp
    have hraw' : constantRaw? ⟨f, start', visible⟩ = .ok none := constantRaw?_of_stored hp
    simp only [enumRaw, enumDef, hk, Action.ok_bind, hraw, hraw']
    cases visible with
    | false => rfl
    | true => simp only [if_true, hr rfl hp]

theorem bits_congr {s : SetDef} (hk : f.kind = .set s)
    (hr : visible → f.presence ≠ .constant →
      w'.read start' s.encoding.size = w.read start s.encoding.size) :
    bits ⟨f, start', visible⟩ w' = bits ⟨f, start, visible⟩ w := by
  simp only [bits, setDef, hk, Action.ok_bind, constant?]
  by_cases hp : f.presence = .constant
  · simp only [if_pos hp]
    rcases f.constant with _ | ⟨value⟩ | ⟨characters⟩ <;> rfl
  · simp only [if_neg hp, Action.ok_bind]
    cases visible with
    | false => rfl
    | true => simp only [if_true, hr rfl hp]

end Binding

namespace SameBlock

variable {w w' : Window} {base base' length : Nat}

theorem read_word (h : SameBlock w w' base base' length) {start offset size : Nat}
    (hs : start + offset + size ≤ length) :
    w'.read (wordOf (base' + start + offset)) size =
      w.read (wordOf (base + start + offset)) size := by
  have := h.stop_lt
  have := h.stop_lt'
  rw [wordOf_of_lt (by omega), wordOf_of_lt (by omega), Nat.add_assoc, Nat.add_assoc]
  exact h.read_eq (start + offset) size hs

theorem readScalar_word (h : SameBlock w w' base base' length) {start offset : Nat}
    {p : Primitive} (hs : start + offset + p.size ≤ length) :
    w'.readScalar (wordOf (base' + start + offset)) p =
      w.readScalar (wordOf (base + start + offset)) p := by
  rw [Window.readScalar, Window.readScalar, h.read_word hs]

theorem presentAt_eq (h : SameBlock w w' base base' length) (f : Field) :
    ∀ start, f.InBlock w.version length start →
      f.presentAt w' (wordOf (base' + start + f.offset)) =
        f.presentAt w (wordOf (base + start + f.offset)) := by
  induction f using Field.first_member_induction with
  | step f ih =>
    intro start hin
    rw [Field.presentAt_eq, Field.presentAt_eq, h.version_eq]
    by_cases hv : w.version < f.since
    · rw [if_pos hv, if_pos hv]
    rw [if_neg hv, if_neg hv]
    have hsince : f.since ≤ w.version := UInt16.not_lt.mp hv
    by_cases hp : f.presence = .optional
    · have hconstant : f.presence ≠ .constant := by simp [hp]
      rw [if_neg (not_not.mpr hp), if_neg (not_not.mpr hp)]
      unfold Field.storedAt
      cases hk : f.kind with
      | type t =>
        have hle := (Field.inBlock_type hk).mp hin hsince hconstant
        -- Presence is read from the first element, even of a type that has none.
        have hfirst : t.primitive.size ≤ t.readLength f.presence := by
          rw [TypeDef.readLength, if_pos hp]
          exact Nat.le_max_right _ _
        have hscalar : start + f.offset + t.primitive.size ≤ length := by omega
        simp only [h.readScalar_word hscalar]
      | enum e =>
        have hle := (Field.inBlock_enum hk).mp hin hsince hconstant
        simp only [h.readScalar_word hle]
      | composite c =>
        dsimp only
        cases hc : c.fields with
        | nil => rfl
        | cons first rest =>
          have hfields := (Field.inBlock_composite hk).mp hin hsince
          rw [hc] at hfields
          have hfirst := ih c hk first (by simp [hc]) (start + f.offset) hfields.1
          rwa [← Nat.add_assoc, ← Nat.add_assoc, ← wordOf_wordOf_add (base' + start + f.offset),
            ← wordOf_wordOf_add (base + start + f.offset)] at hfirst
      | _ => rfl
    · rw [if_pos hp, if_pos hp]

section

variable (h : SameBlock w w' base base' length) {f : Field} {start : Nat} {enclosed : Bool}
  (hin : enclosed → f.InBlock w.version length start)

theorem visible_of_and {version : UInt16} (hv : (enclosed && f.inVersion version) = true) :
    enclosed ∧ f.since ≤ version :=
  ⟨(Bool.and_eq_true_iff.mp hv).1, of_decide_eq_true (Bool.and_eq_true_iff.mp hv).2⟩

include h hin

theorem present_eq :
    (f.bindAt (base' + start) enclosed w'.version).present w' =
      (f.bindAt (base + start) enclosed w.version).present w := by
  rw [h.version_eq]
  unfold Binding.present Field.bindAt
  split
  next hv => exact h.presentAt_eq f start (hin (visible_of_and hv).1)
  next => rfl

theorem value_eq {t : TypeDef} (hk : f.kind = .type t) :
    (f.bindAt (base' + start) enclosed w'.version).value w' =
      (f.bindAt (base + start) enclosed w.version).value w := by
  rw [h.version_eq]
  apply Binding.value_congr hk
  intro hv hp
  obtain ⟨henclosed, hsince⟩ := visible_of_and hv
  have hle := (Field.inBlock_type hk).mp (hin henclosed) hsince hp
  have hread := t.encodedLength_le_readLength f.presence
  exact h.read_word (Nat.le_trans (Nat.add_le_add_left hread _) hle)

theorem enumRaw_eq {e : EnumDef} (hk : f.kind = .enum e) :
    (f.bindAt (base' + start) enclosed w'.version).enumRaw w' =
      (f.bindAt (base + start) enclosed w.version).enumRaw w := by
  rw [h.version_eq]
  apply Binding.enumRaw_congr hk
  intro hv hp
  obtain ⟨henclosed, hsince⟩ := visible_of_and hv
  exact h.readScalar_word ((Field.inBlock_enum hk).mp (hin henclosed) hsince hp)

theorem bits_eq {s : SetDef} (hk : f.kind = .set s) :
    (f.bindAt (base' + start) enclosed w'.version).bits w' =
      (f.bindAt (base + start) enclosed w.version).bits w := by
  rw [h.version_eq]
  apply Binding.bits_congr hk
  intro hv hp
  obtain ⟨henclosed, hsince⟩ := visible_of_and hv
  exact h.read_word ((Field.inBlock_set hk).mp (hin henclosed) hsince hp)

end

theorem walkFields_wordOf (base : Nat) (enclosed : Bool) (fields : List Field) :
    walkFields (wordOf base) enclosed fields = walkFields base enclosed fields := by
  induction fields with
  | nil => rfl
  | cons f rest ih =>
    have hf : f.walk (wordOf base) enclosed = f.walk base enclosed := by
      obtain ⟨name, id, offset, kind, presence, constant, since⟩ := f
      cases kind <;> simp only [Field.walk, Field.bindAt_wordOf]
    simp only [walkFields, hf, ih]

theorem walk_fixed (h : SameBlock w w' base base' length) :
    TableInduction
      (fun f => f.isFixed → f.flat → ∀ (start : Nat) (enclosed : Bool),
        (enclosed → f.InBlock w.version length start) →
        ∃ reading, f.walk (base + start) enclosed w = (reading, w) ∧
          f.walk (base' + start) enclosed w' = (reading, w'))
      (fun fields => (∀ f ∈ fields, f.isFixed) → flatFields fields →
        ∀ (start : Nat) (enclosed : Bool),
        (enclosed → InBlockFields w.version length fields start) →
        ∃ readings, walkFields (base + start) enclosed fields w = (readings, w) ∧
          walkFields (base' + start) enclosed fields w' = (readings, w')) where
  type f t hk := by
    intro _ _ start enclosed hin
    refine ⟨_, Field.walk_type hk, ?_⟩
    rw [Field.walk_type hk, h.present_eq hin, h.value_eq hin hk]
  enum f e hk := by
    intro _ _ start enclosed hin
    refine ⟨_, Field.walk_enum hk, ?_⟩
    rw [Field.walk_enum hk, h.present_eq hin, Binding.enumName?, h.enumRaw_eq hin hk]
    rfl
  set f s hk := by
    intro _ _ start enclosed hin
    refine ⟨_, Field.walk_set hk, ?_⟩
    rw [Field.walk_set hk, h.present_eq hin, Binding.choices, h.bits_eq hin hk, h.version_eq]
    rfl
  -- The places of members are counted from the block, so the induction is over every start.
  composite f c hk ih := by
    intro _ hflat start enclosed hin
    obtain ⟨hfixed, hfields⟩ := (Field.flat_composite hk).mp hflat
    have hmembers : (enclosed && f.inVersion w.version) = true →
        InBlockFields w.version length c.fields (start + f.offset) := by
      intro hv
      obtain ⟨henclosed, hsince⟩ := visible_of_and hv
      exact (Field.inBlock_composite hk).mp (hin henclosed) hsince
    obtain ⟨readings, hw, hw'⟩ := ih hfixed hfields (start + f.offset)
      (enclosed && f.inVersion w.version) hmembers
    rw [← Nat.add_assoc, ← walkFields_wordOf] at hw hw'
    refine ⟨.composite f.name ((f.bindAt (base + start) enclosed w.version).present w) readings,
      ?_, ?_⟩
    · rw [Field.walk_composite hk, hw]
    · rw [Field.walk_composite hk, h.present_eq hin, h.version_eq, hw']
  group f g hk _ := by
    intro hf
    rw [Field.isFixed_group hk] at hf
    cases hf
  data f d hk := by
    intro hf
    rw [Field.isFixed_data hk] at hf
    cases hf
  nil := fun _ _ _ _ _ => ⟨[], rfl, rfl⟩
  cons f rest hf ih := by
    intro hfixed hflat start enclosed hin
    obtain ⟨reading, hw, hw'⟩ := hf (hfixed f List.mem_cons_self) (flatFields_cons.mp hflat).1 start
      enclosed fun henclosed => (hin henclosed).1
    obtain ⟨readings, hws, hws'⟩ := ih (fun g hg => hfixed g (List.mem_cons_of_mem _ hg))
      (flatFields_cons.mp hflat).2 start enclosed fun henclosed => (hin henclosed).2
    refine ⟨reading :: readings, ?_, ?_⟩
    · rw [walkFields_cons, hw, hws]
    · rw [walkFields_cons, hw', hws']

end SameBlock

end SimpleBinary
