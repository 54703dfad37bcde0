import SimpleBinary.Proofs.Content

namespace SimpleBinary

namespace GroupView

def counted (g : GroupView) (count : Nat) : GroupView :=
  { g with blockLength := g.definition.blockLength, count, current := none }

def blockLengthBytes (g : GroupView) : Bytes :=
  g.definition.blockLengthMember.primitive.encode (.uint (UInt64.ofNat g.definition.blockLength))

def countBytes (g : GroupView) (count : Nat) : Bytes :=
  g.definition.numInGroupMember.primitive.encode (.uint (UInt64.ofNat count))

def headed (g : GroupView) (w : Window) (count : Nat) : Window :=
  (w.written (g.headerOffset + g.definition.blockLengthMember.offset) g.blockLengthBytes).written
    (g.headerOffset + g.definition.numInGroupMember.offset) (g.countBytes count)

variable {g : GroupView} {w : Window} {count : Nat}

theorem blockLengthBytes_fit (hg : g.definition.MembersInside) :
    g.headerOffset + g.definition.blockLengthMember.offset + g.blockLengthBytes.length ≤
      g.headerOffset + g.definition.dimension.encodedLength := by
  have hin : g.definition.blockLengthMember.offset +
      g.definition.blockLengthMember.primitive.size ≤
        g.definition.dimension.encodedLength := hg.blockLength
  rw [blockLengthBytes, Primitive.length_encode]
  omega

theorem countBytes_fit (hg : g.definition.MembersInside) (count : Nat) :
    g.headerOffset + g.definition.numInGroupMember.offset + (g.countBytes count).length ≤
      g.headerOffset + g.definition.dimension.encodedLength := by
  have hin : g.definition.numInGroupMember.offset +
      g.definition.numInGroupMember.primitive.size ≤
        g.definition.dimension.encodedLength := hg.numInGroup
  rw [countBytes, Primitive.length_encode]
  omega

theorem resetCount_of_le (hv : g.visible = true) (hi : g.index = 0)
    (hn : count ≤ g.definition.numInGroupMember.primitive.rawMax)
    (hg : g.definition.MembersInside)
    (hw : g.headerOffset + g.definition.dimension.encodedLength ≤ w.limit) :
    Iteration.resetCount count ⟨g, w⟩ = (.ok ⟨⟩, ⟨g.counted count, g.headed w count⟩) := by
  have hword (m : Member) (hm : m.Inside g.definition.dimension.encodedLength) :
      wordOf (g.headerOffset + m.offset) = g.headerOffset + m.offset := by
    unfold Member.Inside at hm
    exact Window.wordOf_of_le (w := w) (by omega)
  have hblock : Window.writeScalar (g.headerOffset + g.definition.blockLengthMember.offset)
      g.definition.blockLengthMember.primitive
      (.uint (UInt64.ofNat g.definition.blockLength)) w = _ :=
    Window.write_of_le (Nat.le_trans (blockLengthBytes_fit hg) hw)
  have hcount : Window.writeScalar (g.headerOffset + g.definition.numInGroupMember.offset)
      g.definition.numInGroupMember.primitive (.uint (UInt64.ofNat count))
      (w.written (g.headerOffset + g.definition.blockLengthMember.offset) g.blockLengthBytes) = _ :=
    Window.write_of_le (Nat.le_trans (countBytes_fit hg count) hw)
  rw [blockLengthBytes] at hcount
  simp only [Iteration.resetCount, Action.bind_apply, Action.get_apply, hv, Bool.not_true,
    Bool.false_eq_true, if_false, hi, Nat.lt_irrefl, if_neg (Nat.not_lt.mpr hn),
    Iteration.onWindow, Action.onPart_apply, hword _ hg.blockLength, hword _ hg.numInGroup, hblock,
    hcount, Action.modify_apply, counted]
  rfl

theorem group_of_resetCount {it it' : Iteration}
    (h : Iteration.resetCount count it = (.ok ⟨⟩, it')) : it'.group = it.group.counted count := by
  simp only [Iteration.resetCount, Action.bind_apply, Action.get_apply, Action.throw_bind] at h
  split at h
  next => cases h
  next =>
    split at h
    next => cases h
    next =>
      split at h
      next => cases h
      next =>
        obtain ⟨_, t, -, hset⟩ := Action.bind_eq_ok h
        cases hset
        rfl

section

variable (hg : g.definition.MembersInside)
  (hw : g.headerOffset + g.definition.dimension.encodedLength ≤ w.bytes.length)
include hg hw

theorem length_blockLength_written :
    (w.bytes.overwrite (g.headerOffset + g.definition.blockLengthMember.offset)
      g.blockLengthBytes).length = w.bytes.length :=
  Bytes.length_overwrite (Nat.le_trans (blockLengthBytes_fit hg) hw)

theorem length_headed (count : Nat) : (g.headed w count).bytes.length = w.bytes.length := by
  have hlength := length_blockLength_written hg hw
  rw [headed, Window.written_bytes, Window.written_bytes, Bytes.length_overwrite, hlength]
  rw [hlength]
  exact Nat.le_trans (countBytes_fit hg count) hw

theorem slice_headed {start size : Nat}
    (ha : Bytes.Apart start size g.headerOffset g.definition.dimension.encodedLength) :
    (g.headed w count).bytes.slice start size = w.bytes.slice start size := by
  have hblock := blockLengthBytes_fit hg
  have hcount := countBytes_fit hg count
  have hlength := length_blockLength_written hg hw
  rw [headed, Window.written_bytes, Window.written_bytes,
    Bytes.slice_overwrite_apart (by omega) (ha.part (by omega) (by omega)).symm,
    Bytes.slice_overwrite_apart (by omega) (ha.part (by omega) (by omega)).symm]

theorem slice_headed_count (count : Nat) :
    (g.headed w count).bytes.slice (g.headerOffset + g.definition.numInGroupMember.offset)
      g.definition.numInGroupMember.primitive.size = g.countBytes count := by
  have hcount := countBytes_fit hg count
  have hlength := length_blockLength_written hg hw
  have hcountSize : (g.countBytes count).length = g.definition.numInGroupMember.primitive.size :=
    Primitive.length_encode _ _
  rw [headed, Window.written_bytes, Window.written_bytes, ← hcountSize,
    Bytes.slice_overwrite (by omega)]

theorem slice_headed_blockLength (ha : Bytes.Apart g.definition.blockLengthMember.offset
      g.definition.blockLengthMember.primitive.size g.definition.numInGroupMember.offset
      g.definition.numInGroupMember.primitive.size) (count : Nat) :
    (g.headed w count).bytes.slice (g.headerOffset + g.definition.blockLengthMember.offset)
      g.definition.blockLengthMember.primitive.size = g.blockLengthBytes := by
  have hblock := blockLengthBytes_fit hg
  have hcount := countBytes_fit hg count
  have hlength := length_blockLength_written hg hw
  have hblockSize : g.blockLengthBytes.length = g.definition.blockLengthMember.primitive.size :=
    Primitive.length_encode _ _
  have hcountSize : (g.countBytes count).length = g.definition.numInGroupMember.primitive.size :=
    Primitive.length_encode _ _
  rw [headed, Window.written_bytes, Window.written_bytes, Bytes.slice_overwrite_apart (by omega),
    ← hblockSize, Bytes.slice_overwrite (by omega)]
  unfold Bytes.Apart at *
  omega

end

theorem number_headed (hg : g.definition.WellFormed)
    (hn : count ≤ g.definition.numInGroupMember.primitive.rawMax)
    (hw : g.headerOffset + g.definition.dimension.encodedLength ≤ w.bytes.length) {header : Bytes}
    (hh : header =
      (g.headed w count).bytes.slice g.headerOffset g.definition.dimension.encodedLength) :
    g.definition.blockLengthMember.number header = g.definition.blockLength ∧
      g.definition.numInGroupMember.number header = count := by
  subst hh
  constructor
  · apply Member.number_of_encode hg.blockLength_unsigned hg.blockLength_le
    rw [Bytes.slice_slice _ hg.inside.blockLength, slice_headed_blockLength hg.inside hw hg.apart]
    rfl
  · apply Member.number_of_encode hg.numInGroup_unsigned hn
    rw [Bytes.slice_slice _ hg.inside.numInGroup, slice_headed_count hg.inside hw]
    rfl

end GroupView

namespace DataView

variable {d : DataView} {w : Window} {bytes : Bytes}

def lengthBytes (d : DataView) (bytes : Bytes) : Bytes :=
  d.definition.lengthMember.primitive.encode
    (.uint (UInt64.ofNat (d.definition.elementCount bytes)))

def stored (d : DataView) (w : Window) (bytes : Bytes) : Window :=
  ((w.written (w.position + d.definition.lengthMember.offset) (d.lengthBytes bytes)).written
    (w.position + d.headerLength) bytes).moved (d.headerLength + bytes.length)

theorem setValue_of_admits (hv : d.visible = true) (hd : d.definition.LengthInside)
    (ha : d.definition.admits bytes)
    (hw : w.position + (d.headerLength + bytes.length) ≤ w.limit) :
    d.setValue bytes w = (.ok ⟨⟩, d.stored w bytes) := by
  have hin : d.definition.lengthMember.offset + d.definition.lengthMember.primitive.size ≤
      d.headerLength := hd
  have hrest : bytes.length % d.elementSize = 0 := ha.1
  have hcount : ¬ d.definition.lengthMember.primitive.rawMax < bytes.length / d.elementSize :=
    Nat.not_lt.mpr ha.2
  have hlength : Window.writeScalar (w.position + d.definition.lengthMember.offset)
      d.definition.lengthMember.primitive
      (.uint (UInt64.ofNat (bytes.length / d.elementSize))) w = _ :=
    Window.write_of_le (by rw [Primitive.length_encode]; omega)
  have hpayload : Window.write (w.position + d.headerLength) bytes
      (w.written (w.position + d.definition.lengthMember.offset) (d.lengthBytes bytes)) = _ :=
    Window.write_of_le (by rw [Window.written_limit]; omega)
  have hmember : wordOf (w.position + d.definition.lengthMember.offset) = _ :=
    Window.wordOf_of_le (w := w) (by omega)
  have hstart : wordOf (w.position + d.headerLength) = _ := Window.wordOf_of_le (w := w) (by omega)
  have hsize : wordOf (d.headerLength + bytes.length) = _ := Window.wordOf_of_le (w := w) (by omega)
  have hadvance : Window.advance (d.headerLength + bytes.length)
      ((w.written (w.position + d.definition.lengthMember.offset) (d.lengthBytes bytes)).written
        (w.position + d.headerLength) bytes) = _ :=
    Window.advance_of_le hw
  have hwrite : d.writeLength (bytes.length / d.elementSize) bytes.length w =
      (.ok (w.position + d.headerLength),
        w.written (w.position + d.definition.lengthMember.offset) (d.lengthBytes bytes)) := by
    simp only [writeLength, Action.bind_apply, Action.get_apply, hv, Bool.not_true,
      Bool.false_eq_true, if_false, if_neg hcount, Action.discard_apply, Action.lift_apply,
      Window.check_of_le hw, Except.map, hmember, hlength, hstart, Action.pure_apply]
    rfl
  simp only [setValue, hrest, ne_eq, not_true_eq_false, if_false, Action.bind_apply, hwrite,
    hpayload, Action.discard_apply, hsize, hadvance, Except.map]
  rfl

theorem lengthBytes_fit (hd : d.definition.LengthInside) (w : Window) (bytes : Bytes) :
    w.position + d.definition.lengthMember.offset + (d.lengthBytes bytes).length ≤
      w.position + d.headerLength := by
  have hin : d.definition.lengthMember.offset + d.definition.lengthMember.primitive.size ≤
      d.headerLength := hd
  rw [lengthBytes, Primitive.length_encode]
  omega

section

variable (hd : d.definition.LengthInside)
  (hw : w.position + (d.headerLength + bytes.length) ≤ w.bytes.length)
include hd hw

theorem length_length_written :
    (w.bytes.overwrite (w.position + d.definition.lengthMember.offset)
      (d.lengthBytes bytes)).length = w.bytes.length := by
  have hfit := lengthBytes_fit hd w bytes
  exact Bytes.length_overwrite (by omega)

theorem length_stored : (d.stored w bytes).bytes.length = w.bytes.length := by
  have hfit := lengthBytes_fit hd w bytes
  have hlength := length_length_written hd hw
  rw [stored, Window.moved_bytes, Window.written_bytes, Bytes.length_overwrite,
    Window.written_bytes, hlength]
  rw [Window.written_bytes, hlength]
  omega

theorem slice_stored {start size : Nat}
    (ha : Bytes.Apart start size w.position (d.headerLength + bytes.length)) :
    (d.stored w bytes).bytes.slice start size = w.bytes.slice start size := by
  have hfit := lengthBytes_fit hd w bytes
  have hlength := length_length_written hd hw
  rw [stored, Window.moved_bytes, Window.written_bytes, Window.written_bytes,
    Bytes.slice_overwrite_apart (by rw [hlength]; omega) (ha.part (by omega) (by omega)).symm,
    Bytes.slice_overwrite_apart (by omega) (ha.part (by omega) (by omega)).symm]

theorem slice_stored_length :
    (d.stored w bytes).bytes.slice (w.position + d.definition.lengthMember.offset)
      d.definition.lengthMember.primitive.size = d.lengthBytes bytes := by
  have hfit := lengthBytes_fit hd w bytes
  have hlength := length_length_written hd hw
  have hsize : (d.lengthBytes bytes).length = d.definition.lengthMember.primitive.size :=
    Primitive.length_encode _ _
  rw [stored, Window.moved_bytes, Window.written_bytes, Window.written_bytes,
    Bytes.slice_overwrite_apart (by omega), ← hsize, Bytes.slice_overwrite (by omega)]
  unfold Bytes.Apart
  omega

theorem slice_stored_payload :
    (d.stored w bytes).bytes.slice (w.position + d.headerLength) bytes.length = bytes := by
  have hlength := length_length_written hd hw
  rw [stored, Window.moved_bytes, Window.written_bytes, Bytes.slice_overwrite]
  rw [Window.written_bytes, hlength]
  omega

end

theorem follows_of_carries (hd : d.definition.WellFormed)
    (hw : w.position + (d.headerLength + bytes.length) ≤ w.bytes.length)
    (hv : d.visible = true) (ha : d.definition.admits bytes) {v : Window}
    (hp : v.position = w.position) (hmax : bytes.length ≤ Window.maxPosition)
    (hc : v.Carries (d.stored w bytes).bytes w.position (d.headerLength + bytes.length)) :
    d.Follows v ((d.stored w bytes).bytes.slice w.position d.headerLength) bytes ∧
      d.definition.lengthMember.number
        ((d.stored w bytes).bytes.slice w.position d.headerLength) =
          d.definition.elementCount bytes := by
  have hheader := (hc.part (Nat.le_refl _) (by omega) : v.Carries _ w.position d.headerLength).read
  have hpayload := (hc.part (by omega) (by omega) :
    v.Carries _ (w.position + d.headerLength) bytes.length).read
  have hcount : d.definition.lengthMember.number
      ((d.stored w bytes).bytes.slice w.position d.headerLength) =
        d.definition.elementCount bytes := by
    have hin : d.definition.lengthMember.offset + d.definition.lengthMember.primitive.size ≤
        d.headerLength := hd.inside
    apply Member.number_of_encode hd.length_unsigned ha.2
    rw [Bytes.slice_slice _ hin, slice_stored_length hd.inside hw]
    rfl
  rw [slice_stored_payload hd.inside hw] at hpayload
  refine ⟨⟨hv, hd.inside, ?_, ?_, ?_, ?_⟩, hcount⟩
  · rw [hp]
    exact hheader
  · rw [hp]
    exact hpayload
  · rw [hcount]
    exact (Nat.div_mul_cancel (Nat.dvd_of_mod_eq_zero ha.1)).symm
  · exact hmax

end DataView

end SimpleBinary
