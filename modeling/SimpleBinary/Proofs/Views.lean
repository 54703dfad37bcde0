import Mathlib.Data.List.Nodup
import SimpleBinary.Proofs.Carried

namespace SimpleBinary

section

variable {α : Type} {steps : List (α × Nat)} {values : List α}

theorem length_foldl_set (steps : List (α × Nat)) (values : List α) :
    (steps.foldl (fun values step => values.set step.2 step.1) values).length = values.length := by
  induction steps generalizing values with
  | nil => rfl
  | cons step rest ih => rw [List.foldl_cons, ih, List.length_set]

theorem getElem?_foldl_set_of_not_mem {i : Nat} (h : i ∉ steps.map Prod.snd) :
    (steps.foldl (fun values step => values.set step.2 step.1) values)[i]? = values[i]? := by
  induction steps generalizing values with
  | nil => rfl
  | cons step rest ih =>
    rw [List.map_cons, List.mem_cons, not_or] at h
    rw [List.foldl_cons, ih h.2, List.getElem?_set_ne (Ne.symm h.1)]

theorem getElem?_foldl_set_of_mem (hnodup : (steps.map Prod.snd).Nodup) {v : α} {i : Nat}
    (h : (v, i) ∈ steps) (hi : i < values.length) :
    (steps.foldl (fun values step => values.set step.2 step.1) values)[i]? = some v := by
  induction steps generalizing values with
  | nil => cases h
  | cons step rest ih =>
    rw [List.map_cons, List.nodup_cons] at hnodup
    rw [List.foldl_cons]
    rcases List.mem_cons.mp h with rfl | hrest
    · rw [getElem?_foldl_set_of_not_mem hnodup.1, List.getElem?_set_self hi]
    · exact ih hnodup.2 hrest (by rwa [List.length_set])

section

variable (hperm : steps.Perm values.zipIdx)

include hperm

theorem mem_of_perm_zipIdx {i : Nat} (hi : i < values.length) : (values[i], i) ∈ steps := by
  rw [hperm.mem_iff, List.mem_zipIdx_iff_getElem?]
  exact List.getElem?_eq_getElem hi

theorem lt_of_perm_zipIdx {step : α × Nat} (h : step ∈ steps) : step.2 < values.length := by
  rw [hperm.mem_iff, List.mem_zipIdx_iff_getElem?] at h
  exact (List.getElem?_eq_some_iff.mp h).1

theorem foldl_set_of_perm {initial : List α} (hlength : initial.length = values.length) :
    steps.foldl (fun values step => values.set step.2 step.1) initial = values := by
  have hnodup : (steps.map Prod.snd).Nodup := by
    rw [(hperm.map Prod.snd).nodup_iff, List.zipIdx_map_snd]
    exact List.nodup_range'
  apply List.ext_getElem?
  intro i
  by_cases hi : i < values.length
  · rw [getElem?_foldl_set_of_mem hnodup (mem_of_perm_zipIdx hperm hi) (hlength ▸ hi),
      List.getElem?_eq_getElem hi]
  · have hend : values.length ≤ i := Nat.le_of_not_lt hi
    rw [List.getElem?_eq_none hend, List.getElem?_eq_none]
    rwa [length_foldl_set, hlength]

end

end

section

variable {α : Type} [Element α] {p : Primitive} [ExactElementOf α p]

theorem elementBytes_elements_exact (p : Primitive) [ExactElementOf α p] {content : Bytes}
    {count : Nat} (h : content.length = p.size * count) :
    elementBytes (elements α content) = content :=
  ElementOf.elementBytes_elements (p := p) ExactElementOf.encode_decode h

theorem length_elementBytes (p : Primitive) [ExactElementOf α p] (values : List α) :
    (elementBytes values).length = p.size * values.length := by
  rw [TypeDef.length_elementBytes, ← ElementOf.size_eq (α := α) (p := p), Nat.mul_comm]

theorem overwrite_elementBytes (p : Primitive) [ExactElementOf α p] {values : List α} {i : Nat}
    (hi : i < values.length) (v : α) :
    (elementBytes values).overwrite (i * p.size) (Element.encode v) =
      elementBytes (values.set i v) := by
  have hsize := ElementOf.size_eq (α := α) (p := p)
  have hpos : 0 < Element.size α := hsize ▸ p.size_pos
  have hlength := length_elementBytes p values
  have hfits : i * p.size + p.size ≤ (elementBytes values).length := by
    rw [hlength, ← Nat.succ_mul, Nat.mul_comm]
    exact Nat.mul_le_mul_left _ hi
  have hpart : i * p.size + (Element.encode v).length ≤ (elementBytes values).length := by
    rwa [LawfulElement.length_encode, ← hsize]
  have hset : elements α ((elementBytes values).overwrite (i * Element.size α) (Element.encode v)) =
      (elements α (elementBytes values)).set i v :=
    elements_overwrite hpos (hsize ▸ hfits) v
  rw [elements_elementBytes hpos, ← hsize] at hset
  rw [← hset, elementBytes_elements_exact p ((Bytes.length_overwrite hpart).trans hlength)]

theorem toList_elementBytes (p : Primitive) [ExactElementOf α p] (values : List α) :
    ScalarArray.toList ⟨p, elementBytes values⟩ = values.map Element.toScalar := by
  have hsize := ElementOf.size_eq (α := α) (p := p)
  have hpos : 0 < Element.size α := hsize ▸ p.size_pos
  have hdecode : p.decode = Element.toScalar ∘ (Element.decode : Bytes → α) := by
    funext piece
    exact ElementOf.decode_eq piece
  calc ScalarArray.toList ⟨p, elementBytes values⟩
      = (elements α (elementBytes values)).map Element.toScalar := by
        rw [ScalarArray.toList, ScalarArray.length, elements, List.map_map, hdecode, hsize]
    _ = values.map Element.toScalar := by rw [elements_elementBytes hpos]

end

namespace Binding

variable {α : Type} [Element α] {b : Binding} {w : Window} {t : TypeDef}

def setEach (b : Binding) : List (α × Nat) → Action Window Unit
  | [] => pure ⟨⟩
  | (v, i) :: rest => do
    b.setArrayElement i v
    b.setEach rest

section

variable [ExactElementOf α t.primitive] (hk : b.field.kind = .type t) (hs : b.Stores)

include hk hs

theorem setArrayElement_of_stores (i : Nat) (v : α) :
    b.setArrayElement i v w =
      if i < t.length then
        Window.write (wordOf (b.offset + i * t.primitive.size)) (Element.encode v) w
      else (.error (.lengthMismatch b.field.name t.length (wordOf (i + 1))), w) := by
  have htype := arrayType_eq hk (ElementOf.size_eq (α := α))
  simp only [setArrayElement, Action.bind_apply, Action.lift_apply, htype,
    requireVisible_of_visible hs.visible, checkIndex, constant?_of_stored hs.stored,
    Window.writeElement, ← ElementOf.size_eq (α := α) (p := t.primitive)]
  by_cases hi : i < t.length
  · rw [if_pos hi, if_pos hi]
  · rw [if_neg hi, if_neg hi]

theorem setArray_of_stores (values : List α) :
    b.setArray values w =
      if values.length = t.length then Window.write b.offset (elementBytes values) w
      else (.error (.lengthMismatch b.field.name t.length values.length), w) := by
  have htype := arrayType_eq hk (ElementOf.size_eq (α := α))
  simp only [setArray, Action.bind_apply, Action.lift_apply, htype,
    requireVisible_of_visible hs.visible, constant?_of_stored hs.stored]
  by_cases hl : values.length = t.length
  · rw [if_neg (not_not.mpr hl), if_pos hl]
  · rw [if_pos hl, if_neg hl]
    rfl

theorem bounds_of_setEach {steps : List (α × Nat)} {w' : Window}
    (h : b.setEach steps w = (.ok ⟨⟩, w')) :
    ∀ step ∈ steps, step.2 < t.length ∧
      wordOf (b.offset + step.2 * t.primitive.size) + t.primitive.size ≤ w.limit := by
  induction steps generalizing w with
  | nil => exact fun step hstep => absurd hstep List.not_mem_nil
  | cons step rest ih =>
    obtain ⟨v, i⟩ := step
    obtain ⟨⟨⟩, after, hfirst, hrest⟩ := Action.bind_eq_ok h
    rw [setArrayElement_of_stores hk hs] at hfirst
    by_cases hi : i < t.length
    · rw [if_pos hi] at hfirst
      obtain ⟨hle, rfl⟩ := Window.write_eq_ok hfirst
      rw [LawfulElement.length_encode, ← ElementOf.size_eq (α := α) (p := t.primitive)] at hle
      intro step hstep
      rcases List.mem_cons.mp hstep with rfl | hmem
      · exact ⟨hi, hle⟩
      · exact ih hrest step hmem
    · rw [if_neg hi] at hfirst
      cases hfirst

theorem setEach_written (hlimit : w.limit ≤ w.bytes.length)
    (hw : b.offset + t.extent ≤ w.limit) {steps : List (α × Nat)} {values : List α}
    (hlength : values.length = t.length) (hsteps : ∀ step ∈ steps, step.2 < t.length) :
    b.setEach steps (w.written b.offset (elementBytes values)) =
      (.ok ⟨⟩, w.written b.offset (elementBytes
        (steps.foldl (fun values step => values.set step.2 step.1) values))) := by
  induction steps generalizing values with
  | nil => rfl
  | cons step rest ih =>
    obtain ⟨v, i⟩ := step
    have hi : i < t.length := hsteps _ List.mem_cons_self
    have hpiece : (Element.encode v).length = t.primitive.size :=
      (LawfulElement.length_encode v).trans (ElementOf.size_eq (α := α)).symm
    have hcell : (elementBytes values).length = t.extent := by
      rw [length_elementBytes t.primitive, hlength]
      rfl
    have hfits : i * t.primitive.size + t.primitive.size ≤ t.extent := by
      rw [← Nat.succ_mul, TypeDef.extent, Nat.mul_comm]
      exact Nat.mul_le_mul_left _ hi
    have hfirst : b.setArrayElement i v (w.written b.offset (elementBytes values)) =
        (.ok ⟨⟩, w.written b.offset (elementBytes (values.set i v))) := by
      rw [setArrayElement_of_stores hk hs, if_pos hi, Window.wordOf_of_le (w := w) (by omega),
        Window.write_of_le (by rw [hpiece, Window.written_limit]; omega)]
      simp only [Window.written]
      -- The element lies inside of the cell that the window was last written at.
      rw [Bytes.overwrite_overwrite_within (by omega) (by omega),
        overwrite_elementBytes t.primitive (hlength ▸ hi)]
    rw [setEach, Action.bind_of_ok hfirst, List.foldl_cons]
    exact ih (by rwa [List.length_set]) fun step hstep => hsteps step (List.mem_cons_of_mem _ hstep)

end

section

variable [ExactElementOf α t.primitive] (hk : b.field.kind = .type t) (hs : b.Stores)
  (hlimit : w.limit ≤ w.bytes.length) {values : List α} {steps : List (α × Nat)}
  (hsteps : steps.Perm values.zipIdx)

include hk hs hlimit hsteps

theorem setEach_eq_setArray (hlength : values.length = t.length)
    (hw : b.offset + t.extent ≤ w.limit) : b.setEach steps w = b.setArray values w := by
  have hcell : (w.bytes.slice b.offset t.extent).length = t.primitive.size * t.length :=
    Bytes.length_slice (Nat.le_trans hw hlimit)
  have hbytes : (elementBytes values).length = t.extent := by
    rw [length_elementBytes t.primitive, hlength]
    rfl
  -- the list that the steps start from is the one that is stored
  set stored := elements α (w.bytes.slice b.offset t.extent)
  have hstored : elementBytes stored = w.bytes.slice b.offset t.extent :=
    elementBytes_elements_exact t.primitive hcell
  have hself : w.written b.offset (elementBytes stored) = w := by
    rw [hstored, Window.written, Bytes.overwrite_slice (Nat.le_trans hw hlimit)]
  have hcount : stored.length = t.length := by
    have hsame := length_elementBytes t.primitive stored
    rw [hstored, hcell] at hsame
    exact (Nat.eq_of_mul_eq_mul_left t.primitive.size_pos hsame).symm
  have hinside (step : α × Nat) (hstep : step ∈ steps) : step.2 < t.length :=
    hlength ▸ lt_of_perm_zipIdx hsteps hstep
  have heach := setEach_written hk hs hlimit hw hcount hinside
  rw [hself, foldl_set_of_perm hsteps (hcount.trans hlength.symm)] at heach
  rw [heach, setArray_of_stores hk hs, if_pos hlength, Window.write_of_le (by omega)]

omit hlimit in
theorem stops_of_setEach (hb : b.offset < UInt64.size) {w' : Window}
    (h : b.setEach steps w = (.ok ⟨⟩, w')) :
    ∀ i < values.length, b.offset + i * t.primitive.size + t.primitive.size ≤ w.limit := by
  have hbounds (i : Nat) (hi : i < values.length) :
      wordOf (b.offset + i * t.primitive.size) + t.primitive.size ≤ w.limit :=
    (bounds_of_setEach hk hs h (values[i], i) (mem_of_perm_zipIdx hsteps hi)).2
  intro i
  induction i with
  | zero =>
    intro hi
    have hfirst := hbounds 0 hi
    rwa [wordOf_of_lt (by omega)] at hfirst
  | succ i ih =>
    intro hi
    have hbefore := ih (by omega)
    have hnext := hbounds (i + 1) hi
    rw [Nat.add_assoc, ← Nat.succ_mul] at hbefore
    rwa [Window.wordOf_of_le hbefore] at hnext

theorem setEach_iff_setArray (hb : b.offset < UInt64.size) (hpos : 1 ≤ t.length)
    (hvalues : t.length ≤ values.length)
    (w' : Window) :
    b.setEach steps w = (.ok ⟨⟩, w') ↔ b.setArray values w = (.ok ⟨⟩, w') := by
  have hlast : t.extent = (t.length - 1) * t.primitive.size + t.primitive.size := by
    rw [← Nat.succ_mul, Nat.succ_eq_add_one, Nat.sub_add_cancel hpos, TypeDef.extent,
      Nat.mul_comm]
  constructor
  · intro h
    -- The last element was taken, so there are no more elements than places.
    have hcount : values.length - 1 < t.length :=
      (bounds_of_setEach hk hs h _ (mem_of_perm_zipIdx hsteps (by omega))).1
    have hw := stops_of_setEach hk hs hsteps hb h (t.length - 1) (by omega)
    rw [← setEach_eq_setArray hk hs hlimit hsteps (by omega) (by omega)]
    exact h
  · intro h
    have hset := h
    rw [setArray_of_stores hk hs] at hset
    by_cases hlength : values.length = t.length
    · rw [if_pos hlength] at hset
      have hw := (Window.write_eq_ok hset).1
      rw [length_elementBytes t.primitive, hlength] at hw
      rw [setEach_eq_setArray hk hs hlimit hsteps hlength hw]
      exact h
    · rw [if_neg hlength] at hset
      cases hset

end

end Binding

def TypeDef.carried (t : TypeDef) : Value → Value
  | .scalar s => .scalar (t.primitive.decode (t.primitive.encode s))
  | v => v

structure AlikeWritten (p : Primitive) (start : Nat) (x y : Except Error Unit × Window) : Prop where
  result : x.1 = y.1
  window : x.2 = { y.2 with bytes := x.2.bytes }
  length : x.2.bytes.length = y.2.bytes.length
  outside : ∀ i, i < start ∨ start + p.size ≤ i → x.2.bytes[i]? = y.2.bytes[i]?
  cell : x.2.bytes.slice start p.size = y.2.bytes.slice start p.size ∨
    (p.decode (x.2.bytes.slice start p.size)).isNaN = true ∧
      p.decode (x.2.bytes.slice start p.size) = p.decode (y.2.bytes.slice start p.size)

namespace AlikeWritten

variable {p : Primitive} {start : Nat}

theorem refl (x : Except Error Unit × Window) : AlikeWritten p start x x :=
  ⟨rfl, rfl, rfl, fun _ _ => rfl, .inl rfl⟩

theorem written {w : Window} {part part' : Bytes} (hpart : part.length = p.size)
    (hpart' : part'.length = p.size) (hw : start + p.size ≤ w.bytes.length)
    (hnan : (p.decode part).isNaN = true) (hsame : p.decode part = p.decode part') :
    AlikeWritten p start (.ok ⟨⟩, w.written start part) (.ok ⟨⟩, w.written start part') where
  result := rfl
  window := rfl
  length := by
    simp only [Window.written_bytes]
    rw [Bytes.length_overwrite (by omega), Bytes.length_overwrite (by omega)]
  outside i hi := by
    simp only [Window.written_bytes]
    rw [Bytes.getElem?_overwrite (by omega), Bytes.getElem?_overwrite (by omega), hpart, hpart',
      if_pos hi, if_pos hi]
  cell := by
    have hstart : start ≤ w.bytes.length := by omega
    have hslice : (w.bytes.overwrite start part).slice start part.length = part :=
      Bytes.slice_overwrite hstart
    have hslice' : (w.bytes.overwrite start part').slice start part'.length = part' :=
      Bytes.slice_overwrite hstart
    rw [hpart] at hslice
    rw [hpart'] at hslice'
    simp only [Window.written_bytes, hslice, hslice']
    exact .inr ⟨hnan, hsame⟩

end AlikeWritten

namespace Binding

variable {α : Type} [Element α] {b : Binding} {w : Window} {t : TypeDef}

structure NumberViews (b : Binding) (t : TypeDef) (α : Type) [Element α] (w : Window) :
    Prop where
  read : (b.scalar α w).map Value.ofElement = (b.value w).map t.carried
  readStored : b.visible = true → (b.scalar α w).map Value.ofElement = b.value w
  readNull : b.visible = false → t.primitive.Carries t.null → ∃ v : α,
    b.scalar α w = .ok v ∧ b.value w = .ok (.scalar t.null) ∧
      (Value.ofElement v).Same t.primitive (.scalar t.null)
  write : ∀ v : α, AlikeWritten t.primitive b.offset (b.setScalar v w) (b.setValue (.ofElement v) w)
  writeNumber : ∀ v : α, (Element.toScalar v).isNaN = false →
    b.setScalar v w = b.setValue (.ofElement v) w

structure TextViews (b : Binding) (w : Window) : Prop where
  read : b.value w = (b.text w).map .text
  write : ∀ characters, b.setText characters w = b.setValue (.text characters) w

structure ArrayViews (b : Binding) (t : TypeDef) (α : Type) [Element α] (w : Window) : Prop where
  read : b.value w = (b.array α w).map fun values => .array ⟨t.primitive, elementBytes values⟩
  elements : ∀ values : List α,
    ScalarArray.toList ⟨t.primitive, elementBytes values⟩ = values.map Element.toScalar
  write : ∀ values : List α,
    b.setArray values w = b.setValue (.array ⟨t.primitive, elementBytes values⟩) w

structure ElementViews (b : Binding) (t : TypeDef) (α : Type) [Element α] (w : Window) :
    Prop where
  read : ∀ values, b.array α w = .ok values →
    (t.extent < UInt64.size → values.length = t.length) ∧
    ∀ i v, values[i]? = some v → b.arrayElement α i w = .ok v
  write : ∀ values : List α, t.length ≤ values.length → ∀ steps, steps.Perm values.zipIdx →
    ∀ w', b.setEach steps w = (.ok ⟨⟩, w') ↔ b.setArray values w = (.ok ⟨⟩, w')

theorem carried_ofElement [ExactElementOf α t.primitive] (v : α) :
    t.carried (.ofElement v) = .ofElement v := by
  rw [Value.ofElement, TypeDef.carried, ← ExactElementOf.toScalar_ofScalar (α := α),
    ExactElementOf.toScalar_ofScalar_toScalar t.primitive]

section

variable [ExactElementOf α t.primitive] (hk : b.field.kind = .type t)
  (hp : b.field.presence ≠ .constant)

include hk hp

section

variable (hl : t.length = 1)

include hl

theorem setScalar_eq_write (v : α) :
    b.setScalar v w =
      if b.visible then Window.write b.offset (Element.encode v) w
      else (.error (b.field.notInVersion w.version), w) := by
  have htype := scalarType_eq hk hl (ElementOf.size_eq (α := α))
  simp only [setScalar, Action.bind_apply, Action.lift_apply, htype, constant?_of_stored hp,
    Window.writeElement]
  cases hv : b.visible with
  | true => simp only [requireVisible_of_visible hv, if_true]
  | false => simp [requireVisible, Action.bind_apply, hv]

theorem setValue_eq_write (s : Scalar) :
    b.setValue (.scalar s) w =
      if b.visible then Window.write b.offset (t.primitive.encode s) w
      else (.error (b.field.notInVersion w.version), w) := by
  simp only [setValue, Action.bind_apply, Action.lift_apply, typeDef_eq hk, constant?_of_stored hp,
    Window.writeScalar, hl]
  cases hv : b.visible with
  | true => simp [requireVisible_of_visible hv]
  | false => simp [requireVisible, Action.bind_apply, hv]

theorem setScalar_eq_setValue_of_number (v : α) (hv : (Element.toScalar v).isNaN = false) :
    b.setScalar v w = b.setValue (.ofElement v) w := by
  rw [setScalar_eq_write hk hp hl, Value.ofElement, setValue_eq_write hk hp hl,
    ← ExactElementOf.encode_ofScalar (α := α),
    ExactElementOf.ofScalar_toScalar (p := t.primitive) v hv]

end

theorem alikeWritten (hw : w.limit ≤ w.bytes.length) (hl : t.length = 1) (v : α) :
    AlikeWritten t.primitive b.offset (b.setScalar v w) (b.setValue (.ofElement v) w) := by
  cases hnan : (Element.toScalar v).isNaN with
  | false =>
    rw [setScalar_eq_setValue_of_number hk hp hl v hnan]
    exact .refl _
  | true =>
    -- One of the writes may lose the payload, but both are read as the same.
    rw [setScalar_eq_write hk hp hl, Value.ofElement, setValue_eq_write hk hp hl]
    cases b.visible with
    | false => exact .refl _
    | true =>
      have hpiece : (Element.encode v).length = t.primitive.size :=
        (LawfulElement.length_encode v).trans (ElementOf.size_eq (α := α)).symm
      have hpiece' : (t.primitive.encode (Element.toScalar v)).length = t.primitive.size :=
        t.primitive.length_encode _
      have hread : t.primitive.decode (Element.encode v) = Element.toScalar v :=
        ExactElementOf.decode_of_encode v
      have hread' : t.primitive.decode (t.primitive.encode (Element.toScalar v)) =
          Element.toScalar v := by
        rw [← ExactElementOf.toScalar_ofScalar (α := α),
          ExactElementOf.toScalar_ofScalar_toScalar t.primitive]
      rw [if_pos rfl, if_pos rfl]
      by_cases hfits : b.offset + t.primitive.size ≤ w.limit
      · rw [Window.write_of_le (by rwa [hpiece]), Window.write_of_le (by rwa [hpiece'])]
        exact .written hpiece hpiece' (Nat.le_trans hfits hw) (by rw [hread, hnan])
          (by rw [hread, hread'])
      · have hlt : w.limit < b.offset + t.primitive.size := Nat.lt_of_not_le hfits
        rw [Window.write_of_lt (by rwa [hpiece]), Window.write_of_lt (by rwa [hpiece']), hpiece,
          hpiece']
        exact .refl _

theorem numberViews (hw : w.limit ≤ w.bytes.length) (hl : t.length = 1) :
    b.NumberViews t α w where
  read := by
    cases hv : b.visible with
    | true =>
      rw [value_eq_scalar_of_visible (α := α) hk hp hl hv]
      cases b.scalar α w with
      | error e => rfl
      | ok v => exact congrArg Except.ok (carried_ofElement v).symm
    | false =>
      rw [scalar_of_absent hk hp hl hv, value_of_absent hk hp hv, TypeDef.absent, if_pos hl]
      refine congrArg Except.ok ?_
      rw [Value.ofElement, TypeDef.carried, ExactElementOf.toScalar_ofScalar (p := t.primitive)]
  readStored hv := (value_eq_scalar_of_visible hk hp hl hv).symm
  readNull hv hn := by
    refine ⟨_, scalar_of_absent hk hp hl hv, ?_, ?_⟩
    · rw [value_of_absent hk hp hv, TypeDef.absent, if_pos hl]
    · rw [Value.ofElement, ExactElementOf.toScalar_ofScalar (p := t.primitive)]
      exact hn
  write v := alikeWritten hk hp hw hl v
  writeNumber v hv := setScalar_eq_setValue_of_number hk hp hl v hv

theorem arrayViews (hw : w.limit ≤ w.bytes.length) (hl : t.length ≠ 1) (ht : t.isText = false) :
    b.ArrayViews t α w where
  read := by
    cases hv : b.visible with
    | true => exact value_eq_array hk ⟨hv, hp⟩ ExactElementOf.encode_decode hl ht hw
    | false =>
      have htype := arrayType_eq hk (ElementOf.size_eq (α := α))
      rw [value_of_absent hk hp hv, TypeDef.absent, if_neg hl, ht]
      simp only [array, htype, constant?_of_stored hp, Action.ok_bind, hv, Bool.false_eq_true,
        if_false]
      rfl
  elements := toList_elementBytes t.primitive
  write values := congrFun (setArray_eq_setValue hk hp values) w

theorem elementViews (hw : w.limit ≤ w.bytes.length) (hb : b.offset < UInt64.size)
    (hv : b.visible = true) (hl : 1 ≤ t.length) : b.ElementViews t α w where
  read values h := by
    have hs : b.Stores := ⟨hv, hp⟩
    refine ⟨fun hword => ?_, fun i v hi => arrayElement_of_array hk hs hw h hi⟩
    rw [array_of_visible hk hs, TypeDef.encodedLength, wordOf_of_lt hword] at h
    cases hread : w.read b.offset t.extent with
    | error e =>
      rw [hread] at h
      cases h
    | ok content =>
      rw [hread] at h
      cases h
      have hlength : content.length = t.primitive.size * t.length := Window.length_of_read hw hread
      rw [elements, List.length_map, Bytes.length_pieces, hlength,
        ← ElementOf.size_eq (α := α) (p := t.primitive),
        Nat.mul_div_cancel_left _ t.primitive.size_pos]
  write values hvalues steps hsteps :=
    setEach_iff_setArray hk ⟨hv, hp⟩ hw hsteps hb hl hvalues

end

theorem textViews (hk : b.field.kind = .type t) (hp : b.field.presence ≠ .constant)
    (ht : t.isText) : b.TextViews w where
  read := value_eq_text hk ht fun s => by
    rw [constant?_of_stored hp]
    exact nofun
  write characters :=
    congrFun (setText_eq_setValue hk (TypeDef.primitive_of_isText ht) characters) w

/-- The views of a stored field agree: those of its element type, of text and of any type. -/
theorem typed_views_agree (hk : b.field.kind = .type t) (hp : b.field.presence ≠ .constant)
    (hb : b.offset < UInt64.size) (hw : w.limit ≤ w.bytes.length) :
    (t.length = 1 → b.NumberViews t t.primitive.Native w) ∧
      (t.isText → b.TextViews w) ∧
      (t.length ≠ 1 → t.isText = false → b.ArrayViews t t.primitive.Native w) ∧
      (b.visible = true → 1 ≤ t.length → b.ElementViews t t.primitive.Native w) :=
  ⟨numberViews hk hp hw, textViews hk hp, arrayViews hk hp hw, elementViews hk hp hw hb⟩

def pricesField : Field :=
  ⟨"prices", 1, 1, .type (.plain "prices" .float 2), .required, none, 0⟩

theorem typed_views_agree_prices :
    (pricesField.bindAt 0 true 0).field.presence ≠ .constant ∧
      (pricesField.bindAt 0 true 0).ArrayViews (.plain "prices" .float 2) Binary32
        ⟨[9, 0, 0, 0x80, 0x3f, 1, 0, 0x80, 0x7f], 9, 0, 0, by decide⟩ ∧
      (pricesField.bindAt 0 true 0).ElementViews (.plain "prices" .float 2) Binary32
        ⟨[9, 0, 0, 0x80, 0x3f, 1, 0, 0x80, 0x7f], 9, 0, 0, by decide⟩ := by
  have hp : (pricesField.bindAt 0 true 0).field.presence ≠ .constant := by decide
  obtain ⟨-, -, harray, helements⟩ := typed_views_agree (b := pricesField.bindAt 0 true 0)
    (w := ⟨[9, 0, 0, 0x80, 0x3f, 1, 0, 0x80, 0x7f], 9, 0, 0, by decide⟩) rfl hp (by decide)
    (by decide)
  exact ⟨hp, harray (by decide) rfl, helements rfl (by decide)⟩

def wideNullField : Field :=
  ⟨"level", 1, 0, .type { TypeDef.plain "level" .uint8 1 with null? := some (.uint 300) },
    .optional, none, 5⟩

theorem wide_null_cast_to_byte :
    (wideNullField.bindAt 0 true 0).value ⟨[7], 1, 0, 0, by decide⟩ = .ok (.scalar (.uint 300)) ∧
      (wideNullField.bindAt 0 true 0).scalar UInt8 ⟨[7], 1, 0, 0, by decide⟩ = .ok 44 ∧
      ¬ (Value.ofElement (44 : UInt8)).Same .uint8 (.scalar (.uint 300)) :=
  ⟨rfl, rfl, Bool.false_ne_true⟩

end Binding

end SimpleBinary
