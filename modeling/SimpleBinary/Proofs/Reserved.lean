import SimpleBinary.Proofs.Blockwise
import SimpleBinary.Proofs.Resetting

namespace SimpleBinary

mutual

def Field.fitted : Field → Bool
  | ⟨_, _, _, .composite c, _, _, _⟩ =>
    c.encodedLength == (CompositeOf.ofFields c.name c.fields).encodedLength && fittedFields c.fields
  | _ => true

def fittedFields : List Field → Bool
  | [] => true
  | f :: rest => f.fitted && fittedFields rest

end

theorem fitted_of_mem {fields : List Field} (h : fittedFields fields) {f : Field}
    (hf : f ∈ fields) : f.fitted := by
  induction fields with
  | nil => cases hf
  | cons first rest ih =>
    obtain ⟨hfirst, hrest⟩ := Bool.and_eq_true_iff.mp h
    rcases List.mem_cons.mp hf with rfl | hf
    · exact hfirst
    · exact ih hrest hf

theorem Field.fitted_composite {f : Field} {c : CompositeDef} (hk : f.kind = .composite c) :
    f.fitted ↔ c.encodedLength = (CompositeOf.ofFields c.name c.fields).encodedLength ∧
      fittedFields c.fields := by
  obtain ⟨name, id, offset, kind, presence, constant, since⟩ := f
  cases hk
  simp only [fitted, Bool.and_eq_true, beq_iff_eq]

mutual

/-- Bytes from the place of the field to where it or a member of it ends, with no word to hold their
number. -/
def Field.need : Field → Nat
  | ⟨_, _, _, .composite c, _, _, _⟩ => max c.encodedLength (needFields c.fields)
  | f => f.extent

def needFields : List Field → Nat
  | [] => 0
  | f :: rest => max (f.offset + f.need) (needFields rest)

end

theorem stop_le_needFields {fields : List Field} {f : Field} (hf : f ∈ fields) :
    f.offset + f.need ≤ needFields fields := by
  induction fields with
  | nil => cases hf
  | cons first rest ih =>
    rcases List.mem_cons.mp hf with rfl | hf
    · exact Nat.le_max_left _ _
    · exact Nat.le_trans (ih hf) (Nat.le_max_right _ _)

namespace Field

variable {f : Field}

theorem need_composite {c : CompositeDef} (hk : f.kind = .composite c) :
    f.need = max c.encodedLength (needFields c.fields) := by
  obtain ⟨name, id, offset, kind, presence, constant, since⟩ := f
  cases hk
  rfl

theorem extent_le_need (f : Field) : f.extent ≤ f.need := by
  obtain ⟨name, id, offset, kind, presence, constant, since⟩ := f
  cases kind with
  | composite c =>
    rw [need_composite rfl, extent]
    split
    · exact Nat.zero_le _
    · exact Nat.le_max_left _ _
  | _ => exact Nat.le_refl _

theorem encodedLength_eq_extent (h : f.need < UInt64.size) : f.encodedLength = f.extent := by
  have hle := f.extent_le_need
  unfold encodedLength
  by_cases hp : f.presence = .constant
  · rw [if_pos hp, extent, if_pos hp]
  rw [if_neg hp]
  cases hk : f.kind with
  | type t =>
    rw [extent_type hk hp] at hle ⊢
    exact wordOf_of_lt (by omega)
  | _ => rw [extent, if_neg hp, hk]

end Field

namespace CompositeOf

theorem le_foldl_stop (fields : List Field) (length : Nat) :
    length ≤ fields.foldl
      (fun length f => max length (wordOf (f.offset + f.encodedLength))) length := by
  induction fields generalizing length with
  | nil => exact Nat.le_refl _
  | cons first rest ih => exact Nat.le_trans (Nat.le_max_left _ _) (ih _)

theorem stop_le_foldl {fields : List Field} {f : Field} (hf : f ∈ fields) (length : Nat) :
    wordOf (f.offset + f.encodedLength) ≤ fields.foldl
      (fun length f => max length (wordOf (f.offset + f.encodedLength))) length := by
  induction fields generalizing length with
  | nil => cases hf
  | cons first rest ih =>
    rcases List.mem_cons.mp hf with rfl | hf
    · exact Nat.le_trans (Nat.le_max_right _ _) (le_foldl_stop rest _)
    · exact ih hf _

theorem stop_le_ofFields {fields : List Field} {f : Field} (hf : f ∈ fields)
    (h : f.offset + f.need < UInt64.size) (name : String) :
    f.offset + f.extent ≤ (ofFields name fields).encodedLength := by
  have hle := f.extent_le_need
  rw [← wordOf_of_lt (n := f.offset + f.extent) (by omega),
    ← Field.encodedLength_eq_extent (by omega)]
  exact stop_le_foldl hf 0

end CompositeOf

namespace Binding

/-- What is reached from a field through members that are no constants, one after the other. -/
inductive Encloses (version : UInt16) (b : Binding) : Binding → Prop
  | self : Encloses version b b
  | member {m : Binding} {view : CompositeView} {f : Field} (hm : Encloses version b m)
      (hview : CompositeView.ofBinding m = .ok view) (hf : f ∈ view.members.fields)
      (hp : f.presence ≠ .constant) : Encloses version b (view.members.bind version f)

variable {α : Type} {version : UInt16} {b m n : Binding} {w : Window} {edit : Edit}
  {stored : Except Error BitSet}

theorem Encloses.trans (h : b.Encloses version m) (h' : m.Encloses version n) :
    b.Encloses version n := by
  induction h' with
  | self => exact h
  | member _ hview hf hp ih => exact .member ih hview hf hp

theorem ofBinding_eq_ok {view : CompositeView} (h : CompositeView.ofBinding m = .ok view) :
    m.field.kind = .composite view.definition ∧ view.binding = m := by
  refine ⟨?_, CompositeView.binding_of_ofBinding h⟩
  unfold CompositeView.ofBinding at h
  cases hk : m.field.kind with
  | composite c =>
    rw [hk] at h
    cases h
    rfl
  | _ =>
    rw [hk] at h
    cases h

structure Inside (m b : Binding) : Prop where
  stored : m.field.presence ≠ .constant
  fitted : m.field.fitted
  start_le : b.offset ≤ m.offset
  stop_le : m.offset + m.field.extent ≤ b.offset + b.field.extent
  need_le : m.offset + m.field.need ≤ b.offset + b.field.need

theorem Encloses.inside (h : b.Encloses version m) (hp : b.field.presence ≠ .constant)
    (hb : b.field.fitted) (hword : b.offset + b.field.need < UInt64.size) : m.Inside b := by
  induction h with
  | self => exact ⟨hp, hb, Nat.le_refl _, Nat.le_refl _, Nat.le_refl _⟩
  | @member m view f _ hview hf hpf ih =>
    obtain ⟨hk, hbinding⟩ := ofBinding_eq_ok hview
    obtain ⟨hlength, hfields⟩ := (Field.fitted_composite hk).mp ih.fitted
    have hneed : f.offset + f.need ≤ m.field.need := by
      rw [Field.need_composite hk]
      exact Nat.le_trans (stop_le_needFields hf) (Nat.le_max_right _ _)
    have houter := ih.need_le
    have hplace : (view.members.bind version f).offset = m.offset + f.offset := by
      have hbound : (view.members.bind version f).offset = wordOf (m.offset + f.offset) := by
        rw [← hbinding]
        rfl
      rw [hbound, wordOf_of_lt (by omega)]
    have hstop : f.offset + f.extent ≤ m.field.extent := by
      rw [Field.extent_composite hk ih.stored, hlength]
      exact CompositeOf.stop_le_ofFields hf (by omega) _
    have hstart := ih.start_le
    have hend := ih.stop_le
    have hsame : (view.members.bind version f).field = f := rfl
    refine ⟨hpf, fitted_of_mem hfields hf, ?_, ?_, ?_⟩
    · omega
    · rw [hplace, hsame]
      omega
    · rw [hplace, hsame]
      omega

theorem encloses_firstMember {first : Binding} (h : b.firstMember? version = some first)
    (hp : first.field.presence ≠ .constant) : b.Encloses version first := by
  obtain ⟨c, f, hk, hf, rfl⟩ := firstMember?_eq_some h
  have hview : CompositeView.ofBinding b = .ok ⟨b, c⟩ := by rw [CompositeView.ofBinding, hk]
  exact .member .self hview (List.mem_of_mem_head? hf) hp

theorem enclosed_of_editReset (b : Binding) : b.offset + b.field.need < UInt64.size → ∀ start,
    b.field.editReset version start = .ok (some edit) →
      ∃ foot, b.Encloses version foot ∧ foot.field.isPlain ∧
        b.offset + edit.shift = start.getD 0 + foot.offset ∧ edit.part = foot.field.absent := by
  induction b using descent_induction version with
  | step b ih =>
    intro hword start h
    obtain ⟨-, -, h⟩ := Field.editReset_eq_some h
    by_cases hf : b.field.isPlain = true
    · rw [Field.editAbsent_of_isPlain hf] at h
      cases h
      exact ⟨b, .self, hf, Nat.add_comm _ _, rfl⟩
    · unfold Field.editAbsent at h
      cases hk : b.field.kind with
      | composite c =>
        rw [hk] at h
        dsimp only at h
        cases hc : c.fields with
        | nil =>
          rw [hc] at h
          cases h
        | cons first rest =>
          rw [hc] at h
          have hfirst :
              b.firstMember? version = some (first.bindAt b.offset b.visible version) := by
            rw [firstMember?, hk]
            dsimp only
            rw [hc]
            rfl
          obtain ⟨-, hoptional, -⟩ := Field.editReset_eq_some h
          have hp : first.presence ≠ .constant := by simp [hoptional]
          -- The first member ends inside of what the composite needs, so its place is no sum that
          -- wraps.
          have hneed : first.offset + first.need ≤ b.field.need := by
            rw [Field.need_composite hk, hc]
            exact Nat.le_trans (stop_le_needFields List.mem_cons_self) (Nat.le_max_right _ _)
          have hoffset : (first.bindAt b.offset b.visible version).offset =
              b.offset + first.offset := wordOf_of_lt (by omega)
          have hfirstWord : (first.bindAt b.offset b.visible version).offset + first.need <
              UInt64.size := by
            rw [hoffset]
            omega
          obtain ⟨foot, hfoot, hplain, hplace, hpart⟩ := ih _ hfirst hfirstWord _ h
          refine ⟨foot, (encloses_firstMember hfirst hp).trans hfoot, hplain, ?_, hpart⟩
          rw [hoffset, Option.getD_some] at hplace
          omega
      | type | enum | set => simp [Field.isPlain, hk] at hf
      | group | data =>
        rw [hk] at h
        cases h

theorem edit_reserved (hp : b.field.presence ≠ .constant) (hb : b.field.fitted)
    (hword : b.offset + b.field.need < UInt64.size)
    {operation : FieldOperation α} (hs : operation.Suits b.field)
    (h : operation.edit b version stored = .ok (some edit)) :
    edit.shift + edit.part.length ≤ b.field.extent := by
  rcases FieldOperation.isPlain_or_reset h with hf | hreset
  · exact FieldOperation.edit_within hf hs h
  · obtain ⟨-, hreset⟩ := editOptional_eq_some hreset
    obtain ⟨foot, hfoot, hplain, hplace, hpart⟩ := enclosed_of_editReset b hword none hreset
    have hinside := hfoot.inside hp hb hword
    have hlength := Field.length_absent_le hplain hinside.stored
    have hstop := hinside.stop_le
    rw [Option.getD_none] at hplace
    rw [hpart]
    omega

theorem run_reserved (hw : w.Sound) (hp : b.field.presence ≠ .constant) (hb : b.field.fitted)
    (hword : b.offset + b.field.need < UInt64.size) (operation : FieldOperation α)
    (hs : operation.Suits b.field) :
    w.Agrees (fun i => i < b.offset ∨ b.offset + b.field.extent ≤ i)
      (operation.run b w).2 := by
  rw [operation.run_snd]
  rcases hedit : operation.edit b w.version (b.bits w) with e | _ | edit
  · exact .refl _ w
  · exact .refl _ w
  · have hle := edit_reserved hp hb hword hs hedit
    have hneed := b.field.extent_le_need
    rw [Edit.shift] at hle
    rw [settle_some, place_eq (by omega)]
    by_cases hfits : b.offset + edit.start.getD 0 + edit.part.length ≤ w.limit
    · rw [Window.write_of_le hfits]
      exact .written hw hfits fun i hi => by omega
    · rw [Window.write_of_lt (Nat.lt_of_not_le hfits)]
      exact .refl _ w

/-- Where the ends of a field and of its members fit in a word, every member lies inside of the
bytes reserved for the field, and whatever is done to it, with success or not, changes no other
byte and does not move the position. -/
theorem writes_stay_reserved (b : Binding) (hp : b.field.presence ≠ .constant)
    (hb : b.field.fitted) (hword : b.offset + b.field.need < UInt64.size) (w : Window)
    (hw : w.Sound) (m : Binding) (hm : b.Encloses w.version m) :
    b.offset ≤ m.offset ∧
      m.offset + m.field.encodedLength ≤ b.offset + b.field.encodedLength ∧
      ∀ (α : Type) (operation : FieldOperation α), operation.Suits m.field →
        w.Agrees (fun i => i < b.offset ∨ b.offset + b.field.encodedLength ≤ i)
          (operation.run m w).2 := by
  have hinside := hm.inside hp hb hword
  have hstart := hinside.start_le
  have hstop := hinside.stop_le
  have hneed := hinside.need_le
  rw [Field.encodedLength_eq_extent (f := b.field) (by omega),
    Field.encodedLength_eq_extent (f := m.field) (by omega)]
  refine ⟨hstart, hstop, ?_⟩
  intro α operation hs
  have hrun := run_reserved hw hinside.stored hinside.fitted (by omega) operation hs
  exact hrun.mono fun i hi => by omega

end Binding

namespace Market

def quote : Field :=
  (Field.required "quote" 1 0 (.composite (.ofFields "Quote" [
    (Field.required "price" 0 0 (.composite Composites.priceOptional)).optional,
    .required "quantity" 0 8 (.type Types.uint16)]))).optional

end Market

theorem Binding.writes_stay_reserved_quote :
    Market.quote.fitted = true ∧ Market.quote.encodedLength = 10 ∧
      (reset ⟨Market.quote, 1, true⟩ ⟨List.replicate 12 0, 12, 12, 2, by decide⟩).1 = .ok ⟨⟩ ∧
      Window.Agrees (fun i => i < 1 ∨ 1 + 10 ≤ i) ⟨List.replicate 12 0, 12, 12, 2, by decide⟩
        (reset ⟨Market.quote, 1, true⟩ ⟨List.replicate 12 0, 12, 12, 2, by decide⟩).2 ∧
      Window.Agrees (fun i => i < 1 ∨ 1 + 10 ≤ i) ⟨List.replicate 12 0, 12, 12, 2, by decide⟩
        (setScalar ⟨Market.Composites.mantissa, 1, true⟩ (-1 : Int64)
          ⟨List.replicate 12 0, 12, 12, 2, by decide⟩).2 := by
  have hmantissa : Encloses 2 ⟨Market.quote, 1, true⟩ ⟨Market.Composites.mantissa, 1, true⟩ := by
    have hprice : Encloses 2 ⟨Market.quote, 1, true⟩ _ :=
      .member .self rfl List.mem_cons_self (by decide)
    exact .member hprice rfl List.mem_cons_self (by decide)
  obtain ⟨-, -, hwhole⟩ := writes_stay_reserved ⟨Market.quote, 1, true⟩ (by decide) rfl (by decide)
    ⟨List.replicate 12 0, 12, 12, 2, by decide⟩ ⟨by decide, by decide⟩ _ .self
  obtain ⟨-, -, hinner⟩ := writes_stay_reserved ⟨Market.quote, 1, true⟩ (by decide) rfl (by decide)
    ⟨List.replicate 12 0, 12, 12, 2, by decide⟩ ⟨by decide, by decide⟩ _ hmantissa
  have hmember := hinner Unit (.setScalar (-1 : Int64)) (inferInstanceAs (LawfulElement Int64))
  exact ⟨rfl, rfl, rfl, hwhole Unit .reset trivial, hmember⟩

def Market.stretched : Field :=
  .required "stretched" 1 0 (.composite (.ofFields "Stretched" [
    .required "mark" 0 18446744073709551611 (.type (.plain "uint32" .uint32 1))]))

theorem Binding.write_before_reserved :
    ∃ m, (⟨Market.stretched, 8, true⟩ : Binding).Encloses 2 m ∧ Market.stretched.fitted = true ∧
      m.field.presence = .required ∧
      setScalar m (4294967295 : UInt32) ⟨List.replicate 16 0, 16, 16, 2, by decide⟩ =
        (.ok ⟨⟩, ⟨List.replicate 3 0 ++ List.replicate 4 255 ++ List.replicate 9 0, 16, 16, 2,
          by decide⟩) :=
  ⟨_, .member .self rfl List.mem_cons_self (by decide), rfl, rfl, rfl⟩

end SimpleBinary
