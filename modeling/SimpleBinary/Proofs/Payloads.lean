import SimpleBinary.Proofs.Cells
import SimpleBinary.Proofs.Counters

namespace SimpleBinary

namespace ScalarArray

theorem ofBytes_of_whole {bytes : Bytes} {p : Primitive} (h : bytes.length % p.size = 0) :
    ofBytes bytes p = ⟨p, bytes⟩ := by
  rw [ofBytes, h, Nat.sub_zero, List.take_length]

theorem get?_eq (a : ScalarArray) (index : Nat) :
    a.get? index = if index < a.length then
      some (a.primitive.decode (a.bytes.slice (index * a.primitive.size) a.primitive.size))
      else none := by
  have hfits : (index + 1) * a.primitive.size ≤ a.bytes.length ↔ index < a.length :=
    (Nat.le_div_iff_mul_le a.primitive.size_pos).symm
  simp only [get?, hfits]

end ScalarArray

theorem getElem?_elements {α : Type} [Element α] (bytes : Bytes) (index : Nat) :
    (elements α bytes)[index]? = if index < bytes.length / Element.size α then
      some (Element.decode (bytes.slice (index * Element.size α) (Element.size α)))
      else none := by
  rw [elements, List.getElem?_map, Bytes.getElem?_pieces]
  split <;> rfl

namespace DataView

/-- The readers of the data find the elements of the payload, in their order, and each of them that
moves the position leaves the same window. -/
structure Reads (d : DataView) (w : Window) (payload : Bytes) (after : Window) : Prop where
  length : d.length w = .ok (d.definition.elementCount payload)
  skip : d.skip w = (.ok (d.definition.elementCount payload), after)
  value : d.value w = (.ok payload, after)
  valueArray : ∃ array, d.valueArray w = (.ok array, after) ∧
    array.primitive = d.definition.varDataMember.primitive ∧ array.bytes = payload ∧
    array.length = d.definition.elementCount payload ∧
    ∀ i, array.get? i = if i < d.definition.elementCount payload then
      some (array.primitive.decode (payload.slice (i * d.elementSize) d.elementSize)) else none
  values : ∀ {α : Type} [Element α], d.elementSize = Element.size α →
    ∃ list, d.values α w = (.ok list, after) ∧
      ∀ i, list[i]? = if i < d.definition.elementCount payload then
        some (Element.decode (payload.slice (i * d.elementSize) d.elementSize)) else none

variable {d : DataView} {w w' : Window} {header payload : Bytes}

theorem Follows.whole (h : d.Follows w header payload) : payload.length % d.elementSize = 0 := by
  rw [h.length_eq, Nat.mul_mod_left]

theorem Follows.elementCount_eq (h : d.Follows w header payload) :
    d.definition.elementCount payload = d.definition.lengthMember.number header := by
  have hpos : 0 < d.elementSize := d.definition.varDataMember.primitive.size_pos
  rw [DataOf.elementCount, h.length_eq]
  exact Nat.mul_div_cancel _ hpos

theorem valueArray_of_value (h : d.value w = (.ok payload, w')) :
    d.valueArray w =
      (.ok (.ofBytes payload d.definition.varDataMember.primitive), w') := by
  rw [valueArray, Action.bind_of_ok h]
  rfl

theorem values_of_value {α : Type} [Element α] (hs : d.elementSize = Element.size α)
    (h : d.value w = (.ok payload, w')) : d.values α w = (.ok (elements α payload), w') := by
  have hcheck : d.checkElement α = .ok ⟨⟩ := if_pos hs
  rw [values, hcheck]
  exact Action.bind_of_ok h

theorem Follows.reads (h : d.Follows w header payload) :
    d.Reads w payload (w.moved (d.headerLength + payload.length)) := by
  have hlength : d.length w = .ok (d.definition.elementCount payload) := by
    rw [h.elementCount_eq]
    exact length_of_header h.visible h.inside h.read_header
  have harray : ScalarArray.ofBytes payload d.definition.varDataMember.primitive =
      ⟨d.definition.varDataMember.primitive, payload⟩ := ScalarArray.ofBytes_of_whole h.whole
  obtain ⟨hle, -⟩ := Window.read_eq_ok.mp h.read_payload
  have hsize : wordOf (d.headerLength + payload.length) = _ :=
    Window.wordOf_of_le (w := w) (by omega)
  have hadvance : Window.advance (d.headerLength + payload.length) w = _ :=
    Window.advance_of_le (by omega)
  have hskip := skip_of_payload h.visible hlength h.payload_eq
  rw [hsize, hadvance] at hskip
  refine ⟨hlength, hskip, h.value_eq, ?_, ?_⟩
  · refine ⟨_, valueArray_of_value h.value_eq, ?_⟩
    rw [harray]
    exact ⟨rfl, rfl, rfl, ScalarArray.get?_eq _⟩
  · intro α _ hs
    refine ⟨_, values_of_value hs h.value_eq, ?_⟩
    rw [hs, DataOf.elementCount]
    intro i
    rw [getElem?_elements, ← hs]
    rfl

theorem reads_stored (hd : d.definition.WellFormed) (hw : w.limit ≤ w.bytes.length)
    (h : d.setValue payload w = (.ok ⟨⟩, w')) :
    d.Reads { w' with position := w.position } payload w' := by
  obtain ⟨hv, ha, hle, rfl⟩ := setValue_eq_stored hd.inside h
  have hcarries : Window.Carries { d.stored w payload with position := w.position }
      (d.stored w payload).bytes w.position (d.headerLength + payload.length) := ⟨hle, rfl⟩
  have hback : ({ d.stored w payload with position := w.position } : Window).position =
      w.position := rfl
  obtain ⟨hfollows, -⟩ :=
    follows_of_carries hd (Nat.le_trans hle hw) hv ha hback
      (Nat.le_trans (by omega) w.limit_le_max) hcarries
  exact hfollows.reads

theorem setValue_isOk_iff (hd : d.definition.LengthInside) (hv : d.visible = true) :
    (d.setValue payload w).1 = .ok ⟨⟩ ↔
      d.elementSize ∣ payload.length ∧
      payload.length / d.elementSize ≤ d.definition.lengthMember.primitive.rawMax ∧
      w.position + d.headerLength + payload.length ≤ w.limit := by
  constructor
  · intro h
    obtain ⟨-, ha, hle⟩ := setValue_eq_ok (Prod.ext h rfl)
    exact ⟨Nat.dvd_of_mod_eq_zero ha.1, ha.2, by omega⟩
  · rintro ⟨hwhole, hcount, hle⟩
    rw [setValue_of_admits hv hd ⟨Nat.mod_eq_zero_of_dvd hwhole, hcount⟩ (by omega)]

/-- What is stored is found by all readers, elements are stored one by one as their bytes are
together, and storing fails only for the reasons there are. -/
theorem stored_and_read (d : DataView) (w : Window) (hd : d.definition.WellFormed)
    (hv : d.visible = true) (hw : w.limit ≤ w.bytes.length) :
    (∀ payload w', d.setValue payload w = (.ok ⟨⟩, w') →
      d.Reads { w' with position := w.position } payload w') ∧
    (∀ {α : Type} [Element α] [LawfulElement α] (values : List α),
      d.elementSize = Element.size α →
        d.setValues values w = d.setValue (elementBytes values) w) ∧
    (∀ {α : Type} [Element α] [FaithfulElement α] (values : List α) w',
      d.setValues values w = (.ok ⟨⟩, w') →
        d.values α { w' with position := w.position } = (.ok values, w')) ∧
    ∀ payload, (d.setValue payload w).1 = .ok ⟨⟩ ↔
      d.elementSize ∣ payload.length ∧
      payload.length / d.elementSize ≤ d.definition.lengthMember.primitive.rawMax ∧
      w.position + d.headerLength + payload.length ≤ w.limit := by
  refine ⟨fun payload w' h => reads_stored hd hw h,
    fun values hs => setValues_eq_setValue values hs hw, ?_,
    fun payload => setValue_isOk_iff hd.inside hv⟩
  intro α _ _ values w' h
  have hs := elementSize_of_setValues h
  have hpos : 0 < Element.size α := by
    rw [← hs]
    exact d.definition.varDataMember.primitive.size_pos
  have hreads := reads_stored hd hw ((setValues_eq_setValue values hs hw).symm.trans h)
  rw [values_of_value hs hreads.value, elements_elementBytes hpos]

theorem stored_and_read_memo :
    ∃ w, setValue ⟨Market.Snapshot.Fields.memo, Market.Snapshot.memoData, true⟩ [104, 105]
        ⟨List.replicate 8 0, 6, 3, 2, by decide⟩ = (.ok ⟨⟩, w) ∧
      Reads ⟨Market.Snapshot.Fields.memo, Market.Snapshot.memoData, true⟩ { w with position := 3 }
        [104, 105] w ∧
      values ⟨Market.Snapshot.Fields.memo, Market.Snapshot.memoData, true⟩ Int8
        { w with position := 3 } = (.ok [104, 105], w) ∧
      ¬ (setValue ⟨Market.Snapshot.Fields.memo, Market.Snapshot.memoData, true⟩ [104, 105, 106]
        ⟨List.replicate 8 0, 6, 3, 2, by decide⟩).1 = .ok ⟨⟩ := by
  obtain ⟨hreads, -, hvalues, hiff⟩ :=
    stored_and_read ⟨Market.Snapshot.Fields.memo, Market.Snapshot.memoData, true⟩
      ⟨List.replicate 8 0, 6, 3, 2, by decide⟩ (by decide) rfl (by decide)
  refine ⟨_, rfl, hreads [104, 105] _ rfl, hvalues ([104, 105] : List Int8) _ rfl, ?_⟩
  rw [hiff]
  decide

end DataView

end SimpleBinary
