import SimpleBinary.Proofs.Footprint
import SimpleBinary.Schema.Table

namespace SimpleBinary

structure Window.Flagged (w : Window) (n : Nat) (on : Bool) (w' : Window) : Prop where
  window : w' = { w with bytes := w'.bytes }
  length : w'.bytes.length = w.bytes.length
  bit : w'.bytes.bit n = on
  otherBits : ∀ m, m ≠ n → w'.bytes.bit m = w.bytes.bit m
  otherBytes : ∀ i, i ≠ n / 8 → w'.bytes[i]? = w.bytes[i]?

namespace SetDef

variable {s : SetDef} {name : String} {encoding : Primitive} {choices : List Choice}

theorem checked_eq_ok :
    checked name encoding choices = .ok s ↔
      s = ⟨name, encoding, choices⟩ ∧ ∀ choice ∈ choices, choice.bit < encoding.width := by
  have hall : choices.all (fun c => c.bit < encoding.width) = true ↔
      ∀ choice ∈ choices, choice.bit < encoding.width := by simp
  unfold checked
  split
  next h => rw [Except.ok.injEq, eq_comm, and_iff_left (hall.mp h)]
  next h => exact ⟨fun h' => (by cases h'), fun h' => absurd (hall.mpr h'.2) h⟩

theorem choice?_eq_some {before after : List Choice} {choice : Choice}
    (h : s.choices = before ++ choice :: after)
    (hbefore : ∀ earlier ∈ before, earlier.name ≠ choice.name) :
    s.choice? choice.name = some choice := by
  have hnone : before.find? (·.name == choice.name) = none := by
    rw [List.find?_eq_none]
    exact fun earlier he => by simpa using hbefore earlier he
  rw [choice?, h, List.find?_append, hnone, Option.none_or, List.find?_cons_of_pos]
  exact beq_self_eq_true _

theorem mem_of_choice? {choice : Choice} (h : s.choice? name = some choice) :
    choice ∈ s.choices :=
  List.mem_of_find?_eq_some h

end SetDef

namespace Binding

variable {b : Binding} {s : SetDef} {set : BitSet} {w : Window} {name : String} {bit : Nat}

theorem bits_of_stored (hk : b.field.kind = .set s) (hs : b.Stores)
    (hw : b.offset + s.encoding.size ≤ w.limit) :
    b.bits w = .ok (.ofBytes (w.bytes.slice b.offset s.encoding.size) s.encoding) := by
  simp only [bits, setDef_eq hk, constant?_of_stored hs.stored, Action.ok_bind, hs.visible,
    if_true, Window.read_of_le hw]
  rfl

theorem testBit_of_lt (h : b.bits w = .ok set) (hbit : bit < set.width) :
    b.testBit bit w = .ok (set.contains bit) := by
  simp only [testBit, h, Action.ok_bind, BitSet.checkBit, hbit, if_true]
  rfl

theorem testBit_of_le (h : b.bits w = .ok set) (hbit : set.width ≤ bit) :
    b.testBit bit w = .error (.bitOutOfRange bit set.width) := by
  simp only [testBit, h, Action.ok_bind, BitSet.checkBit, Nat.not_lt.mpr hbit, if_false]
  rfl

theorem setBit_of_lt (h : b.bits w = .ok set) (hbit : bit < set.width) (on : Bool) :
    b.setBit bit on w = b.setBits (set.assign bit on) w := by
  simp only [setBit, Action.bind_apply, Action.query_apply, Action.lift_apply, h,
    BitSet.with?_of_lt hbit]

theorem setBit_of_le (h : b.bits w = .ok set) (hbit : set.width ≤ bit) (on : Bool) :
    b.setBit bit on w = (.error (.bitOutOfRange bit set.width), w) := by
  simp only [setBit, Action.bind_apply, Action.query_apply, Action.lift_apply, h,
    BitSet.with?_of_le hbit]

theorem setBit_of_error {e : Error} (h : b.bits w = .error e) (on : Bool) :
    b.setBit bit on w = (.error e, w) := by
  simp only [setBit, Action.bind_apply, Action.query_apply, h]

theorem testBit_of_error {e : Error} (h : b.bits w = .error e) :
    b.testBit bit w = .error e := by
  simp only [testBit, h]
  rfl

theorem choiceNamed_eq {choice : Choice} (hk : b.field.kind = .set s)
    (h : s.choice? name = some choice) : b.choiceNamed name = .ok choice := by
  simp only [choiceNamed, setDef_eq hk, Action.ok_bind, h]
  rfl

theorem setChoice_eq_setBit {choice : Choice} (hk : b.field.kind = .set s)
    (h : s.choice? name = some choice) (on : Bool) :
    b.setChoice name on w = b.setBit choice.bit on w := by
  simp only [setChoice, Action.bind_apply, Action.lift_apply, choiceNamed_eq hk h]

theorem testChoice_eq_testBit {choice : Choice} (hk : b.field.kind = .set s)
    (h : s.choice? name = some choice) : b.testChoice name w = b.testBit choice.bit w := by
  simp only [testChoice, choiceNamed_eq hk h, Action.ok_bind]

section

variable (hk : b.field.kind = .set s) (hs : b.Stores)

include hk hs

theorem bits_of_short (hw : w.limit < b.offset + s.encoding.size) :
    b.bits w = .error (w.tooShort (b.offset + s.encoding.size)) := by
  simp only [bits, setDef_eq hk, constant?_of_stored hs.stored, Action.ok_bind, hs.visible,
    if_true, Window.read_of_lt hw]
  rfl

theorem setBit_eq_written (hw : b.offset + s.encoding.size ≤ w.limit)
    (hbit : bit < s.encoding.width) (on : Bool) :
    b.setBit bit on w = (.ok ⟨⟩, w.written b.offset ((BitSet.ofBytes
      (w.bytes.slice b.offset s.encoding.size) s.encoding).assign bit on).toBytes) := by
  set stored := BitSet.ofBytes (w.bytes.slice b.offset s.encoding.size) s.encoding
  have hsame : BitSet.ofBits (stored.assign bit on).bits s.encoding = stored.assign bit on := by
    have hencoding : (stored.assign bit on).encoding = s.encoding := BitSet.encoding_assign ..
    rw [← hencoding, BitSet.ofBits_bits]
  rw [setBit_of_lt (bits_of_stored hk hs hw) hbit, setBits_of_stored hk hs.stored hs.visible hw,
    hsame]

variable (he : s.encoding.isFloat = false)

include he

theorem testBit_of_stored (hw : b.offset + s.encoding.size ≤ w.limit)
    (hbit : bit < s.encoding.width) :
    b.testBit bit w = .ok (w.bytes.bit (8 * b.offset + bit)) := by
  have hcell : bit < 8 * s.encoding.size := hbit
  rw [testBit_of_lt (bits_of_stored hk hs hw) hbit, BitSet.contains_ofBytes he, Bytes.bit_slice,
    decide_eq_true hbit, decide_eq_true hcell, Bool.true_and, Bool.true_and]

theorem flagged_setBit (hlimit : w.limit ≤ w.bytes.length)
    (hw : b.offset + s.encoding.size ≤ w.limit) (hbit : bit < s.encoding.width) (on : Bool) :
    ∃ w', b.setBit bit on w = (.ok ⟨⟩, w') ∧ w.Flagged (8 * b.offset + bit) on w' := by
  refine ⟨_, setBit_eq_written hk hs hw hbit on, ?_⟩
  set stored := BitSet.ofBytes (w.bytes.slice b.offset s.encoding.size) s.encoding with hstored
  have hlength : (stored.assign bit on).toBytes.length = s.encoding.size := by
    rw [BitSet.length_toBytes, BitSet.encoding_assign]
    rfl
  have hfits : b.offset + (stored.assign bit on).toBytes.length ≤ w.bytes.length := by omega
  have hcell : bit < 8 * s.encoding.size := hbit
  -- a bit of the cell is the one that was assigned or one that was read; the others are not written
  have hbits (m : Nat) : (w.bytes.overwrite b.offset (stored.assign bit on).toBytes).bit m =
      if m = 8 * b.offset + bit then on else w.bytes.bit m := by
    rw [Bytes.bit_overwrite hfits, hlength]
    by_cases hm : 8 * b.offset ≤ m ∧ m < 8 * b.offset + 8 * s.encoding.size
    · obtain ⟨k, rfl⟩ := Nat.exists_eq_add_of_le hm.1
      have hk : k < 8 * s.encoding.size := by omega
      have hkwidth : k < s.encoding.width := hk
      rw [if_pos hm, Nat.add_sub_cancel_left, BitSet.bit_toBytes, BitSet.contains_assign hbit,
        BitSet.contains_ofBytes he, Bytes.bit_slice, decide_eq_true hkwidth, decide_eq_true hk,
        Bool.true_and, Bool.true_and]
      · simp only [Nat.add_left_cancel_iff]
      · rw [BitSet.encoding_assign]
        exact he
    · rw [if_neg hm, if_neg (by omega)]
  have hlength' := Bytes.length_overwrite hfits
  refine ⟨rfl, hlength', (hbits _).trans (if_pos rfl), fun m hm => (hbits m).trans (if_neg hm), ?_⟩
  intro i hi
  apply Bytes.getElem?_eq_of_bit hlength'
  intro m hm
  exact (hbits _).trans (if_neg (by omega))

end

structure SingleBits (b : Binding) (s : SetDef) (w : Window) : Prop where
  testBit : ∀ bit < s.encoding.width, b.testBit bit w = .ok (w.bytes.bit (8 * b.offset + bit))
  setBit : ∀ bit < s.encoding.width, ∀ on, ∃ w',
    b.setBit bit on w = (.ok ⟨⟩, w') ∧ w.Flagged (8 * b.offset + bit) on w' ∧
      ∀ other < s.encoding.width,
        b.testBit other w' = if other = bit then .ok on else b.testBit other w
  beyond : ∀ bit, s.encoding.width ≤ bit →
    b.testBit bit w = .error (.bitOutOfRange bit s.encoding.width) ∧
      ∀ on, b.setBit bit on w = (.error (.bitOutOfRange bit s.encoding.width), w)
  choices : ∃ listed, b.choices w = .ok listed ∧
    List.Forall₂ (fun choice entry =>
      entry.1 = choice.name ∧ b.testBit choice.bit w = .ok entry.2)
      (s.choices.filter fun choice => choice.since ≤ w.version) listed

structure NamedBits (b : Binding) (s : SetDef) : Prop where
  first : ∀ before choice after, s.choices = before ++ choice :: after →
    (∀ earlier ∈ before, earlier.name ≠ choice.name) →
      choice.bit < s.encoding.width ∧ ∀ w, b.testChoice choice.name w = b.testBit choice.bit w ∧
        ∀ on, b.setChoice choice.name on w = b.setBit choice.bit on w
  inRange : ∀ choice ∈ s.choices, ∀ w i width,
    b.testChoice choice.name w ≠ .error (.bitOutOfRange i width) ∧
      ∀ on, (b.setChoice choice.name on w).1 ≠ .error (.bitOutOfRange i width)

section

variable (hk : b.field.kind = .set s) (hs : b.Stores) (he : s.encoding.isFloat = false)
  (hchoices : ∀ choice ∈ s.choices, choice.bit < s.encoding.width)

include hk hs he hchoices

theorem singleBits (hlimit : w.limit ≤ w.bytes.length)
    (hw : b.offset + s.encoding.size ≤ w.limit) : b.SingleBits s w where
  testBit _ := testBit_of_stored hk hs he hw
  setBit bit hbit on := by
    obtain ⟨w', hrun, hflagged⟩ := flagged_setBit hk hs he hlimit hw hbit on
    refine ⟨w', hrun, hflagged, fun other hother => ?_⟩
    have hw' : b.offset + s.encoding.size ≤ w'.limit := by
      rw [hflagged.window]
      exact hw
    rw [testBit_of_stored hk hs he hw' hother, testBit_of_stored hk hs he hw hother]
    by_cases heq : other = bit
    · rw [if_pos heq, heq, hflagged.bit]
    · rw [if_neg heq, hflagged.otherBits _ (by omega)]
  beyond bit hbit := by
    have hbits := bits_of_stored hk hs hw
    exact ⟨testBit_of_le hbits hbit, setBit_of_le hbits hbit⟩
  choices := by
    refine ⟨_, choices_of_bits hk (bits_of_stored hk hs hw), ?_⟩
    rw [List.forall₂_map_right_iff, List.forall₂_same]
    intro choice hchoice
    exact ⟨rfl, testBit_of_lt (bits_of_stored hk hs hw)
      (hchoices choice (List.mem_of_mem_filter hchoice))⟩

theorem namedBits : b.NamedBits s where
  first before choice after hbefore hfirst := by
    have hnamed := SetDef.choice?_eq_some hbefore hfirst
    exact ⟨hchoices choice (SetDef.mem_of_choice? hnamed), fun w =>
      ⟨testChoice_eq_testBit hk hnamed, fun on => setChoice_eq_setBit hk hnamed on⟩⟩
  inRange choice hchoice w i width := by
    obtain ⟨first, hfirst⟩ : ∃ first, s.choice? choice.name = some first := by
      rw [← Option.isSome_iff_exists, SetDef.choice?, List.find?_isSome]
      exact ⟨choice, hchoice, beq_self_eq_true _⟩
    have hbit := hchoices first (SetDef.mem_of_choice? hfirst)
    rw [testChoice_eq_testBit hk hfirst]
    simp only [setChoice_eq_setBit hk hfirst]
    by_cases hw : b.offset + s.encoding.size ≤ w.limit
    · rw [testBit_of_stored hk hs he hw hbit]
      simp only [setBit_eq_written hk hs hw hbit]
      exact ⟨nofun, fun _ => nofun⟩
    · have hshort := bits_of_short hk hs (Nat.lt_of_not_le hw)
      rw [testBit_of_error hshort]
      simp only [setBit_of_error hshort]
      exact ⟨nofun, fun _ => nofun⟩

end

/-- The bits of a stored set are independent of each other and of all that is around them, and the
names of a checked description stand for bits that are there. -/
theorem bits_independent {encoding : Primitive} {choices : List Choice}
    (hchecked : SetDef.checked name encoding choices = .ok s) (he : encoding.isFloat = false)
    (hk : b.field.kind = .set s) (hs : b.Stores) (hlimit : w.limit ≤ w.bytes.length)
    (hw : b.offset + s.encoding.size ≤ w.limit) : b.SingleBits s w ∧ b.NamedBits s := by
  obtain ⟨rfl, hchoices⟩ := SetDef.checked_eq_ok.mp hchecked
  exact ⟨singleBits hk hs he hchoices hlimit hw, namedBits hk hs he hchoices⟩

def signedFlags : SetDef :=
  ⟨"flags", .int16, [⟨"open", 0, 0⟩, ⟨"halted", 15, 1⟩]⟩

def signedFlagsField : Binding :=
  ⟨⟨"flags", 1, 1, .set signedFlags, .required, none, 0⟩, 1, true⟩

theorem signedFlags_independent :
    SetDef.checked "flags" .int16 signedFlags.choices = .ok signedFlags ∧
      Primitive.int16.isFloat = false ∧ signedFlagsField.field.kind = .set signedFlags ∧
      signedFlagsField.Stores ∧
      signedFlagsField.SingleBits signedFlags ⟨[0xaa, 0x34, 0x80, 0xee], 4, 0, 1, by decide⟩ ∧
      signedFlagsField.NamedBits signedFlags := by
  have hchecked : SetDef.checked "flags" .int16 signedFlags.choices = .ok signedFlags := rfl
  have hs : signedFlagsField.Stores := ⟨rfl, by decide⟩
  exact ⟨hchecked, rfl, rfl, hs, bits_independent hchecked rfl rfl hs (by decide) (by decide)⟩

end Binding

end SimpleBinary
