import SimpleBinary.Proofs.Decoding
import SimpleBinary.Proofs.Footprint
import SimpleBinary.Proofs.Variable

namespace SimpleBinary

open scoped Power

namespace Primitive

/-- What is read of a number from so many bytes: a number past the greatest of a signed primitive is
negative, and is continued with ones up to 64 bits. -/
def extended (p : Primitive) (n : Nat) : Nat :=
  if p.isUnsigned ∨ n < 2 ^ (p.width - 1) then n else 2 ^ 64 - 2 ^ p.width + n

theorem extended_eq_iff {p : Primitive} {n : Nat} :
    p.extended n = n ↔ p.isUnsigned ∨ p.width = 64 ∨ n < 2 ^ (p.width - 1) := by
  unfold extended
  split
  next h => simp only [true_iff]; tauto
  next h =>
    rw [not_or] at h
    have hw := p.width_le
    have hlt : p.width < 64 → 2 ^ p.width < 2 ^ 64 := Nat.pow_lt_pow_right (by decide)
    constructor
    · intro heq
      refine .inr (.inl ?_)
      by_contra hne
      have := hlt (by omega)
      omega
    · rintro (hu | heq | hlt)
      · exact absurd hu h.1
      · rw [heq]; simp
      · exact absurd hlt h.2

theorem toNat_toUInt64_ofInt (i : Int) :
    (Int64.ofInt i).toUInt64.toNat = (i % (2 ^ 64 : Nat)).toNat :=
  BitVec.toNat_ofInt i

theorem ofRaw_signed {p : Primitive} (hp : p.isFloat = false) (hu : p.isUnsigned = false)
    (raw : Nat) : p.ofRaw raw = .int (Int64.ofInt ((raw : Int).bmod (2 ^ p.width))) := by
  cases p with
  | float | double => cases hp
  | int8 | int16 | int32 | int64 => rfl
  | _ => cases hu

theorem toUInt64_decode_encode {p : Primitive} (hp : p.isFloat = false) {n : Nat}
    (hn : n ≤ p.rawMax) :
    (p.decode (p.encode (.uint (UInt64.ofNat n)))).toUInt64.toNat = p.extended n := by
  have hword : (UInt64.ofNat n).toNat = n :=
    UInt64.toNat_ofNat_of_lt' (Nat.lt_of_le_of_lt hn p.rawMax_lt)
  cases hu : p.isUnsigned with
  | true => rw [decode_encode_uint hu hn, Scalar.toUInt64, hword, extended, if_pos (.inl hu)]
  | false =>
    have hlt : n < 2 ^ p.width := p.le_rawMax_iff.mp hn
    have hhalf : 2 ^ p.width = 2 * 2 ^ (p.width - 1) := by
      cases p <;> decide
    have hle : (2 : Nat) ^ p.width ≤ 2 ^ 64 :=
      Nat.pow_le_pow_right (by decide) p.width_le
    rw [decode_encode_raw, toRaw_uint hp, hword, Nat.mod_eq_of_lt hlt, ofRaw_signed hp hu,
      Scalar.toUInt64, toNat_toUInt64_ofInt, extended, hu]
    simp only [Bool.false_eq_true, false_or]
    -- What is left is arithmetic on a range and its half, whatever the width.
    generalize (2 : Nat) ^ p.width = range at *
    generalize (2 : Nat) ^ (p.width - 1) = half at *
    split
    next h =>
      rw [Int.bmod_eq_of_le (by omega) (by omega)]
      omega
    next h =>
      have hsigned : (n : Int).bmod range = n - range := by
        rw [Int.bmod_def]
        have hmod : (n : Int) % (range : Int) = n := Int.emod_eq_of_lt (by omega) (by omega)
        rw [hmod, if_neg (by omega)]
      rw [hsigned]
      omega
end Primitive

theorem Bytes.overwrite_append {bytes part part' : Bytes} {start : Nat}
    (h : start + part.length ≤ bytes.length) :
    overwrite (overwrite bytes start part) (start + part.length) part' =
      overwrite bytes start (part ++ part') := by
  have hlength : (bytes.take start ++ part).length = start + part.length := by
    rw [List.length_append, List.length_take]
    omega
  have hfront : (overwrite bytes start part).take (start + part.length) =
      bytes.take start ++ part := by
    rw [overwrite, ← hlength, List.take_left]
  have hback : (overwrite bytes start part).drop (start + part.length + part'.length) =
      bytes.drop (start + (part ++ part').length) := by
    rw [overwrite, ← List.drop_drop, ← hlength, List.drop_left, hlength, List.drop_drop,
      List.length_append, Nat.add_assoc]
  rw [overwrite, hfront, hback, overwrite, List.append_assoc (bytes.take start)]

namespace GroupView

variable {g : GroupView} {w : Window} {n : Nat} {it : Iteration}

theorem resetCount_eq_ok (h : Iteration.resetCount n ⟨g, w⟩ = (.ok ⟨⟩, it)) :
    g.visible = true ∧ g.index = 0 ∧
      n ≤ g.definition.numInGroupMember.primitive.rawMax := by
  simp only [Iteration.resetCount, Action.bind_apply, Action.get_apply, Action.throw_bind] at h
  split at h
  next => cases h
  next hv =>
    split at h
    next => cases h
    next hi =>
      split at h
      next => cases h
      next hn => exact ⟨by simpa using hv, by omega, Nat.le_of_not_lt hn⟩

theorem bind_headed (hv : g.visible = true) (hg : g.definition.MembersInside)
    (hp : g.definition.numInGroupMember.primitive.isFloat = false)
    (hn : n ≤ g.definition.numInGroupMember.primitive.rawMax)
    (hw : g.headerOffset + g.definition.dimension.encodedLength ≤ w.limit)
    (hl : w.limit ≤ w.bytes.length) :
    ∃ again v, bind g.field g.definition g.visible
        { g.headed w n with position := g.headerOffset } = (.ok again, v) ∧
      again.count = g.definition.numInGroupMember.primitive.extended n := by
  let u : Window := { g.headed w n with position := g.headerOffset }
  have hheader : u.read g.headerOffset g.definition.dimension.encodedLength = _ :=
    Window.read_of_le hw
  have hcount : g.definition.numInGroupMember.number
      (u.bytes.slice g.headerOffset g.definition.dimension.encodedLength) =
        g.definition.numInGroupMember.primitive.extended n := by
    rw [Member.number, Bytes.slice_slice _ hg.numInGroup,
      slice_headed_count hg (Nat.le_trans hw hl), countBytes]
    exact Primitive.toUInt64_decode_encode hp hn
  have hbind := bind_of_header hg hheader g.field
  rw [hv]
  exact ⟨_, _, hbind, hcount⟩

end GroupView

namespace DataView

variable {d : DataView} {w w' : Window} {bytes : Bytes} {α : Type} [Element α]

theorem writeLength_admits {count size start : Nat}
    (h : d.writeLength count size w = (.ok start, w')) :
    d.visible = true ∧ count ≤ d.definition.lengthMember.primitive.rawMax ∧
      (w.limit ≤ w.bytes.length → w'.bytes.length = w.bytes.length) := by
  simp only [writeLength, Action.bind_apply, Action.get_apply, Action.throw_bind] at h
  split at h
  next => cases h
  next hv =>
    split at h
    next => cases h
    next hn =>
      obtain ⟨_, w₁, hcheck, h⟩ := Action.bind_eq_ok h
      obtain ⟨_, w₂, hwrite, h⟩ := Action.bind_eq_ok h
      cases h
      rw [Action.discard_apply, Action.lift_apply] at hcheck
      obtain ⟨-, rfl⟩ := Prod.mk.inj hcheck
      obtain ⟨hfit, rfl⟩ := Window.write_eq_ok hwrite
      refine ⟨by simpa using hv, Nat.le_of_not_lt hn, ?_⟩
      exact fun hl => Bytes.length_overwrite (Nat.le_trans hfit hl)

theorem setValue_eq_ok (h : d.setValue bytes w = (.ok ⟨⟩, w')) :
    d.visible = true ∧ d.definition.admits bytes ∧
      w.position + (d.headerLength + bytes.length) ≤ w.limit := by
  simp only [setValue, Action.throw_bind] at h
  split at h
  next => cases h
  next hrest =>
    obtain ⟨start, v, hlength, -⟩ := Action.bind_eq_ok h
    obtain ⟨hv, hn, -⟩ := writeLength_admits hlength
    obtain ⟨rfl, hle, -⟩ := writeLength_eq_ok hlength
    exact ⟨hv, ⟨not_not.mp hrest, hn⟩, by omega⟩

theorem setValue_eq_stored (hd : d.definition.LengthInside)
    (h : d.setValue bytes w = (.ok ⟨⟩, w')) :
    d.visible = true ∧ d.definition.admits bytes ∧
      w.position + (d.headerLength + bytes.length) ≤ w.limit ∧ w' = d.stored w bytes := by
  obtain ⟨hv, ha, hle⟩ := setValue_eq_ok h
  rw [setValue_of_admits hv hd ha hle] at h
  exact ⟨hv, ha, hle, (Prod.mk.inj h).2.symm⟩

theorem length_stored_extended (hd : d.definition.LengthInside)
    (hp : d.definition.lengthMember.primitive.isFloat = false) (hl : w.limit ≤ w.bytes.length)
    (h : d.setValue bytes w = (.ok ⟨⟩, w')) :
    d.length { w' with position := w.position } =
      .ok (d.definition.lengthMember.primitive.extended (d.definition.elementCount bytes)) := by
  obtain ⟨hv, ha, hle, rfl⟩ := setValue_eq_stored hd h
  have hin : d.definition.lengthMember.offset + d.definition.lengthMember.primitive.size ≤
      d.headerLength := hd
  have hstop : w.position + d.definition.lengthMember.offset +
      d.definition.lengthMember.primitive.size ≤ w.limit := by omega
  have hback : (d.stored w bytes).bytes.slice (w.position + d.definition.lengthMember.offset)
      d.definition.lengthMember.primitive.size = _ := slice_stored_length hd (Nat.le_trans hle hl)
  have hplace : wordOf (w.position + d.definition.lengthMember.offset) =
      w.position + d.definition.lengthMember.offset :=
    Window.wordOf_of_le (w := w) (by omega)
  have hstop' : d.lengthStop { d.stored w bytes with position := w.position } ≤ w.limit := by
    rw [lengthStop, hplace]
    exact hstop
  have hlength : d.length { d.stored w bytes with position := w.position } = _ :=
    length_of_le hv hstop'
  rw [hlength, announced, hplace]
  dsimp only
  rw [hback, lengthBytes]
  exact congrArg _ (Primitive.toUInt64_decode_encode hp ha.2)

theorem writeElements_eq [LawfulElement α] (values : List α) :
    ∀ (start : Nat) (w : Window), w.limit ≤ w.bytes.length →
      start + (elementBytes values).length ≤ w.limit →
      writeElements start values w = Window.write start (elementBytes values) w := by
  induction values with
  | nil =>
    intro start w hl hle
    rw [Window.write_of_le hle, Window.written, elementBytes, List.flatMap_nil,
      Bytes.overwrite_nil]
    rfl
  | cons value rest ih =>
    intro start w hl hle
    have hsize : (Element.encode value).length = Element.size α := LawfulElement.length_encode value
    have hbytes : elementBytes (value :: rest) = Element.encode value ++ elementBytes rest := rfl
    rw [hbytes] at hle ⊢
    have hle' := hle
    rw [List.length_append] at hle'
    have hfit : start + (Element.encode value).length ≤ w.bytes.length := by omega
    have hwrite : Window.writeElement start value w = _ := Window.write_of_le (by omega)
    have hrest : w.limit ≤ (w.written start (Element.encode value)).bytes.length := by
      rw [Window.written_bytes, Bytes.length_overwrite hfit]
      exact hl
    have hmore : start + Element.size α + (elementBytes rest).length ≤ w.limit := by omega
    have hback : Window.write (start + Element.size α) (elementBytes rest)
        (w.written start (Element.encode value)) = _ := Window.write_of_le hmore
    have hword : wordOf (start + Element.size α) = start + Element.size α :=
      Window.wordOf_of_le (w := w) (by omega)
    -- One element and the rest are two strings back to back.
    rw [writeElements, Action.bind_of_ok hwrite, hword, ih _ (w.written _ _) hrest hmore, hback,
      Window.write_of_le hle, ← hsize, Window.written, Window.written_bytes,
      Bytes.overwrite_append hfit]
    rfl

theorem elementCount_elementBytes [LawfulElement α] (values : List α)
    (hs : d.elementSize = Element.size α) :
    d.definition.elementCount (elementBytes values) = values.length := by
  have hpos : 0 < d.elementSize := d.definition.varDataMember.primitive.size_pos
  rw [DataOf.elementCount, TypeDef.length_elementBytes, ← hs]
  exact Nat.mul_div_cancel_left _ hpos

theorem setValues_eq_setValue [LawfulElement α] (values : List α)
    (hs : d.elementSize = Element.size α) (hl : w.limit ≤ w.bytes.length) :
    d.setValues values w = d.setValue (elementBytes values) w := by
  have hcount : (elementBytes values).length / d.elementSize = values.length :=
    elementCount_elementBytes values hs
  have hsize : (elementBytes values).length = values.length * Element.size α := by
    rw [TypeDef.length_elementBytes, Nat.mul_comm]
  have hrest : (elementBytes values).length % d.elementSize = 0 := by
    rw [hsize, hs, Nat.mul_mod_left]
  simp only [setValues, setValue, checkElement, if_pos hs, hrest, ne_eq, not_true_eq_false,
    if_false, hcount, ← hsize]
  change (d.writeLength _ _ >>= _) w = _
  cases hlength : d.writeLength values.length (elementBytes values).length w with
  | mk result v =>
    cases result with
    | error e => rw [Action.bind_of_error hlength, Action.bind_of_error hlength]
    | ok start =>
      obtain ⟨-, -, hkept⟩ := writeLength_admits hlength
      obtain ⟨rfl, hle, hlimit, -⟩ := writeLength_eq_ok hlength
      have helements := writeElements_eq values (w.position + d.headerLength) v
        (by rw [hlimit, hkept hl]; exact hl) (by omega)
      rw [Action.bind_of_ok hlength, Action.bind_of_ok hlength, Action.bind_apply, helements,
        Action.bind_apply]

theorem elementSize_of_setValues {values : List α} (h : d.setValues values w = (.ok ⟨⟩, w')) :
    d.elementSize = Element.size α := by
  by_contra hs
  have hcheck : d.checkElement α = .error (.kindMismatch d.field.name) := if_neg hs
  simp only [setValues, hcheck] at h
  cases h

end DataView

/-- A count and a length that pass the guard are read back as they were, unless they reach into the
sign of a signed member of fewer than 64 bits. -/
theorem guarded_number_extended (p : Primitive) (hp : p.isFloat = false) (n : Nat) :
    (∀ (g : GroupView) (w : Window) (it : Iteration), g.definition.MembersInside →
      g.definition.numInGroupMember.primitive = p →
      g.headerOffset + g.definition.dimension.encodedLength ≤ w.limit →
      w.limit ≤ w.bytes.length → Iteration.resetCount n ⟨g, w⟩ = (.ok ⟨⟩, it) →
      ∃ again v, GroupView.bind g.field g.definition g.visible
          { it.window with position := g.headerOffset } = (.ok again, v) ∧
        again.count = p.extended n) ∧
    (∀ (d : DataView) (w w' : Window) (bytes : Bytes), d.definition.LengthInside →
      d.definition.lengthMember.primitive = p → w.limit ≤ w.bytes.length →
      d.definition.elementCount bytes = n → d.setValue bytes w = (.ok ⟨⟩, w') →
      d.length { w' with position := w.position } = .ok (p.extended n)) ∧
    (∀ {α : Type} [Element α] [LawfulElement α] (d : DataView) (w w' : Window) (values : List α),
      d.definition.LengthInside → d.definition.lengthMember.primitive = p →
      w.limit ≤ w.bytes.length → values.length = n → d.setValues values w = (.ok ⟨⟩, w') →
      d.length { w' with position := w.position } = .ok (p.extended n)) ∧
    (p.extended n = n ↔ p.isUnsigned ∨ p.width = 64 ∨ n < 2 ^ (p.width - 1)) := by
  refine ⟨?_, ?_, ?_, Primitive.extended_eq_iff⟩
  · rintro g w it hg rfl hw hl hreset
    obtain ⟨hv, hi, hn⟩ := GroupView.resetCount_eq_ok hreset
    rw [GroupView.resetCount_of_le hv hi hn hg hw] at hreset
    cases hreset
    exact GroupView.bind_headed hv hg hp hn hw hl
  · rintro d w w' bytes hd rfl hl rfl hset
    exact DataView.length_stored_extended hd hp hl hset
  · rintro α _ _ d w w' values hd rfl hl rfl hset
    have hs := DataView.elementSize_of_setValues hset
    rw [DataView.setValues_eq_setValue values hs hl] at hset
    rw [← DataView.elementCount_elementBytes values hs]
    exact DataView.length_stored_extended hd hp hl hset

theorem guarded_number_extended_snapshot :
    ∃ it again v,
      Iteration.resetCount 200
          ⟨⟨Market.Snapshot.Fields.noMdEntries, Market.Entries.group, 0, 0, 0, 0, none, true⟩,
            ⟨List.replicate 3 0, 3, 3, 2, by decide⟩⟩ = (.ok ⟨⟩, it) ∧
        GroupView.bind Market.Snapshot.Fields.noMdEntries Market.Entries.group true
          { it.window with position := 0 } = (.ok again, v) ∧
        again.count = 200 := by
  obtain ⟨again, v, hbind, hcount⟩ := (guarded_number_extended .uint8 rfl 200).1
    ⟨Market.Snapshot.Fields.noMdEntries, Market.Entries.group, 0, 0, 0, 0, none, true⟩
    ⟨List.replicate 3 0, 3, 3, 2, by decide⟩ _ (by decide) rfl (by decide) (by decide) rfl
  exact ⟨_, again, v, rfl, hbind, hcount⟩

namespace Market

def signedSizeEncoding : CompositeDef :=
  .ofFields "groupSizeEncoding" [
    .required "blockLength" 0 0 (.type Types.uint16),
    .required "numInGroup" 0 2 (.type Types.exponent)]

def levelsGroup : GroupDef :=
  { name := "levels"
    dimension := signedSizeEncoding
    blockLengthMember := ⟨0, .uint16⟩
    numInGroupMember := ⟨2, .int8⟩
    blockLength := 0
    fields := [] }

end Market

theorem signed_count_turns_negative :
    GroupOf.checked "levels" Market.signedSizeEncoding 0 [] = .ok Market.levelsGroup ∧
      ∃ levels w it again v,
        GroupView.bind (.required "levels" 268 0 (.group Market.levelsGroup)) Market.levelsGroup
          true ⟨[0, 0, 0], 3, 0, 2, by decide⟩ = (.ok levels, w) ∧
        Iteration.resetCount 200 ⟨levels, w⟩ = (.ok ⟨⟩, it) ∧
        GroupView.bind levels.field levels.definition levels.visible
          { it.window with position := levels.headerOffset } = (.ok again, v) ∧
        again.count = 2 ^ 64 - 56 :=
  ⟨rfl, _, _, _, _, _, rfl, rfl, rfl, rfl⟩

end SimpleBinary
