import SimpleBinary.Market.Schema
import SimpleBinary.Proofs.Footprint

namespace SimpleBinary

theorem BitSet.toBytes_one_ne_zeros (encoding : Primitive) :
    (ofBits 1 encoding).toBytes ≠ List.replicate encoding.size 0 := by
  cases encoding <;> decide +kernel

namespace Binding

variable {b : Binding}

theorem set_of_isTextSet (h : b.field.isTextSet = true) :
    ∃ s characters, b.field.kind = .set s ∧ b.field.presence = .constant ∧
      b.field.constant = some (.text characters) := by
  obtain ⟨⟨name, id, offset, kind, presence, constant, since⟩, start, visible⟩ := b
  unfold Field.isTextSet at h
  split at h
  next heq =>
    cases heq
    exact ⟨_, _, rfl, rfl, rfl⟩
  next => cases h

theorem setBits_of_isTextSet (hv : b.visible = true) (h : b.field.isTextSet = true) :
    ∃ s, b.field.kind = .set s ∧ ∀ (set : BitSet) (w : Window),
      b.offset + s.encoding.size ≤ w.limit →
        b.setBits set w =
          (.ok ⟨⟩, w.written b.offset (BitSet.ofBits set.bits s.encoding).toBytes) := by
  obtain ⟨s, characters, hk, hp, hc⟩ := set_of_isTextSet h
  refine ⟨s, hk, ?_⟩
  intro set w hw
  simp only [setBits, Action.bind_apply, Action.lift_apply, setDef_eq hk,
    constant?_of_constant hp hc, requireVisible_of_visible hv]
  exact Window.write_of_le (by rwa [BitSet.toBytes, Primitive.length_encode])

end Binding

/-- Nothing that is done to a field with a constant changes a byte or the position, just when the
field is not a set with a text for its constant, or is not visible, or is behind every window. -/
theorem constant_keeps_window (b : Binding) (hp : b.field.presence = .constant) :
    (∀ (α : Type) (operation : FieldOperation α) (w : Window), (operation.run b w).2 = w) ↔
      ¬ (b.visible = true ∧ b.field.isTextSet = true ∧
        ∀ s, b.field.kind = .set s → b.offset + s.encoding.size ≤ Window.maxPosition) := by
  constructor
  · rintro hkeeps ⟨hv, htext, hplace⟩
    obtain ⟨s, hk, hwrite⟩ := Binding.setBits_of_isTextSet hv htext
    have hlength : (BitSet.ofBits 1 s.encoding).toBytes.length = s.encoding.size :=
      Primitive.length_encode _ _
    -- A set with one bit in it, stored over zeros, is seen afterwards.
    let zeros : Bytes := List.replicate (b.offset + s.encoding.size) 0
    have hzeros : zeros.length = b.offset + s.encoding.size := List.length_replicate
    have hmax : zeros.length ≤ Window.maxPosition := by
      rw [hzeros]
      exact hplace s hk
    have hsame := hkeeps Unit (.setBits (.ofBits 1 s.encoding)) ⟨zeros, zeros.length, 0, 0, hmax⟩
    have hstored : (BitSet.ofBits (BitSet.ofBits 1 s.encoding).bits s.encoding) =
        BitSet.ofBits 1 s.encoding := BitSet.ofBits_bits _
    rw [FieldOperation.run, hwrite _ _ (Nat.le_of_eq hzeros.symm), hstored] at hsame
    have hbytes : zeros.overwrite b.offset (BitSet.ofBits 1 s.encoding).toBytes = zeros :=
      congrArg Window.bytes hsame
    apply BitSet.toBytes_one_ne_zeros s.encoding
    calc (BitSet.ofBits 1 s.encoding).toBytes
        = (zeros.overwrite b.offset (BitSet.ofBits 1 s.encoding).toBytes).slice b.offset
            (BitSet.ofBits 1 s.encoding).toBytes.length :=
          (Bytes.slice_overwrite (by omega)).symm
      _ = zeros.slice b.offset s.encoding.size := by rw [hbytes, hlength]
      _ = List.replicate s.encoding.size 0 := by
          rw [Bytes.slice, List.drop_replicate, List.take_replicate]
          congr 1
          omega
  · intro htext α operation w
    rw [operation.run_snd]
    cases hedit : operation.edit b w.version (b.bits w) with
    | error e => rfl
    | ok edit? =>
      cases edit? with
      | none => rfl
      | some edit =>
        obtain ⟨hv, hstored | ⟨hset, -⟩⟩ := FieldOperation.stored_of_edit hedit
        · exact absurd hp hstored
        obtain ⟨s, hk, hstart, hlength⟩ := FieldOperation.edit_of_constant hp hedit
        -- The set lies behind every limit, so the write is refused.
        have hplace : Window.maxPosition < b.offset + s.encoding.size := by
          apply Nat.lt_of_not_le
          intro hle
          apply htext
          refine ⟨hv, hset, fun s' hk' => ?_⟩
          cases hk.symm.trans hk'
          exact hle
        rw [Binding.settle_some, hstart, Binding.place, Window.write_of_lt]
        rw [hlength]
        exact Nat.lt_of_le_of_lt w.limit_le_max hplace

theorem constant_keeps_window_exponent :
    (Market.Composites.exponent.bindAt 28 true 2).field.presence = .constant ∧
      ((∀ (α : Type) (operation : FieldOperation α) (w : Window),
          (operation.run (Market.Composites.exponent.bindAt 28 true 2) w).2 = w) ↔
        ¬ ((Market.Composites.exponent.bindAt 28 true 2).visible = true ∧
          (Market.Composites.exponent.bindAt 28 true 2).field.isTextSet = true ∧
          ∀ s, (Market.Composites.exponent.bindAt 28 true 2).field.kind = .set s →
            (Market.Composites.exponent.bindAt 28 true 2).offset + s.encoding.size ≤
              Window.maxPosition)) :=
  ⟨by decide, constant_keeps_window _ (by decide)⟩

namespace Market

def textFlags : Field :=
  (Field.required "flags" 5799 0 (.set matchEventIndicator)).constantly (.text "x")

end Market

theorem text_constant_overwrites_neighbour :
    Market.textFlags.presence = .constant ∧
      (FieldOperation.setBits (.ofBits 255 .uint8)).run (Market.textFlags.bindAt 0 true 2)
          ⟨[1, 2], 2, 2, 2, by decide⟩ =
        (.ok ⟨⟩, ⟨[255, 2], 2, 2, 2, by decide⟩) :=
  ⟨rfl, rfl⟩

end SimpleBinary
