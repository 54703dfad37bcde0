import SimpleBinary.Proofs.Cells

namespace SimpleBinary

namespace Binding

def cell (b : Binding) (w : Window) : Bytes :=
  w.bytes.slice b.offset b.field.extent

structure Reads (b : Binding) (w : Window) (content : Bytes) : Prop where
  value (t : TypeDef) (hk : b.field.kind = .type t) : b.value w = .ok (t.valueOf content)
  scalar (t : TypeDef) (hk : b.field.kind = .type t) (α : Type) [Element α] (hl : t.length = 1)
    (hs : t.primitive.size = Element.size α) : b.scalar α w = .ok (Element.decode content)
  text (t : TypeDef) (hk : b.field.kind = .type t) (hc : t.primitive = .char) :
    b.text w = .ok content.untilZero
  array (t : TypeDef) (hk : b.field.kind = .type t) (α : Type) [Element α]
    (hs : t.primitive.size = Element.size α) : b.array α w = .ok (elements α content)
  raw (e : EnumDef) (hk : b.field.kind = .enum e) :
    b.enumRaw w = .ok (e.encoding.decode content).toUInt64
  bits (s : SetDef) (hk : b.field.kind = .set s) : b.bits w = .ok (.ofBytes content s.encoding)
  present_type (t : TypeDef) (hk : b.field.kind = .type t) (hp : b.field.presence = .optional)
    (hl : 1 ≤ t.length) :
    b.present w = .ok (!t.primitive.equal (t.primitive.decode content) t.null)
  present_enum (e : EnumDef) (hk : b.field.kind = .enum e) (hp : b.field.presence = .optional) :
    b.present w = .ok ((e.encoding.decode content).toUInt64 != e.null)

variable {b : Binding} {w : Window}

theorem scalarType_eq {α : Type} [Element α] {t : TypeDef} (hk : b.field.kind = .type t)
    (hl : t.length = 1) (hs : t.primitive.size = Element.size α) : b.scalarType α = .ok t := by
  simp only [scalarType, typeDef_eq hk, Action.ok_bind, hl, hs, ne_eq, not_true_eq_false, or_self,
    if_false]
  rfl

theorem arrayType_eq {α : Type} [Element α] {t : TypeDef} (hk : b.field.kind = .type t)
    (hs : t.primitive.size = Element.size α) : b.arrayType α = .ok t := by
  simp only [arrayType, typeDef_eq hk, Action.ok_bind, hs, ne_eq, not_true_eq_false, if_false]
  rfl

theorem textCapacity_eq {t : TypeDef} (hk : b.field.kind = .type t) (hc : t.primitive = .char) :
    b.textCapacity = .ok t.length := by
  simp only [textCapacity, typeDef_eq hk, Action.ok_bind, hc, ne_eq, not_true_eq_false, if_false]
  rfl

section

variable {content : Bytes} (hs : b.Stores)
  (hread : w.read b.offset b.field.extent = .ok content)

include hs hread

theorem value_of_cell {t : TypeDef} (hk : b.field.kind = .type t) :
    b.value w = .ok (t.valueOf content) := by
  rw [Field.extent_type hk hs.stored] at hread
  have hlength : t.encodedLength = t.extent := Window.wordOf_of_read hread
  simp only [value, typeDef_eq hk, constant?_of_stored hs.stored, Action.ok_bind, hs.visible,
    if_true, hlength]
  unfold TypeDef.valueOf
  split
  next hone =>
    rw [TypeDef.extent, hone, Nat.mul_one] at hread
    rw [Window.readScalar_of_read hread]
    rfl
  next =>
    rw [hread]
    simp only [Action.ok_bind]
    split <;> rfl

theorem scalar_of_cell {α : Type} [Element α] {t : TypeDef} (hk : b.field.kind = .type t)
    (hone : t.length = 1) (hsize : t.primitive.size = Element.size α) :
    b.scalar α w = .ok (Element.decode content) := by
  rw [Field.extent_type hk hs.stored, TypeDef.extent, hone, Nat.mul_one, hsize]
    at hread
  simp only [scalar, scalarType_eq hk hone hsize, constant?_of_stored hs.stored, Action.ok_bind,
    hs.visible, if_true, Window.readElement, hread]
  rfl

theorem text_of_cell {t : TypeDef} (hk : b.field.kind = .type t) (hc : t.primitive = .char) :
    b.text w = .ok content.untilZero := by
  rw [Field.extent_type hk hs.stored, TypeDef.extent_of_char hc] at hread
  simp only [text, textCapacity_eq hk hc, constant?_of_stored hs.stored, Action.ok_bind,
    hs.visible, if_true, hread]
  rfl

theorem array_of_cell {α : Type} [Element α] {t : TypeDef} (hk : b.field.kind = .type t)
    (hsize : t.primitive.size = Element.size α) : b.array α w = .ok (elements α content) := by
  rw [Field.extent_type hk hs.stored] at hread
  have hlength : t.encodedLength = t.extent := Window.wordOf_of_read hread
  simp only [array, arrayType_eq hk hsize, constant?_of_stored hs.stored, Action.ok_bind,
    hs.visible, if_true, hlength, hread]
  rfl

theorem enumRaw_of_cell {e : EnumDef} (hk : b.field.kind = .enum e) :
    b.enumRaw w = .ok (e.encoding.decode content).toUInt64 := by
  rw [Field.extent_enum hk hs.stored] at hread
  simp only [enumRaw, enumDef_eq hk, constantRaw?_of_stored hs.stored, Action.ok_bind, hs.visible,
    if_true, Window.readScalar_of_read hread]
  rfl

theorem bits_of_cell {s : SetDef} (hk : b.field.kind = .set s) :
    b.bits w = .ok (.ofBytes content s.encoding) := by
  rw [Field.extent_set hk hs.stored] at hread
  simp only [bits, setDef_eq hk, constant?_of_stored hs.stored, Action.ok_bind, hs.visible,
    if_true, hread]
  rfl

variable (hsince : b.field.since ≤ w.version) (hp : b.field.presence = .optional)

include hsince hp

theorem present_of_type {t : TypeDef} (hk : b.field.kind = .type t) (hl : 1 ≤ t.length) :
    b.present w = .ok (!t.primitive.equal (t.primitive.decode content) t.null) := by
  rw [Field.extent_type hk hs.stored] at hread
  have hle : t.primitive.size ≤ t.extent := Nat.le_mul_of_pos_right _ hl
  have hfirst : w.read (b.offset + 0) t.primitive.size =
      .ok (content.slice 0 t.primitive.size) := Window.read_part hread (by omega)
  rw [Nat.add_zero] at hfirst
  have hdecode : t.primitive.decode (content.slice 0 t.primitive.size) =
      t.primitive.decode content := by
    rw [Primitive.decode, Primitive.decode, Bytes.slice, List.drop_zero, List.take_take,
      Nat.min_self]
  rw [present, if_pos hs.visible, Field.presentAt_eq, if_neg (UInt16.not_lt.mpr hsince),
    if_neg (not_not.mpr hp)]
  simp only [Field.storedAt, hk, Window.readScalar_of_read hfirst, Action.ok_bind, hdecode]
  rfl

theorem present_of_enum {e : EnumDef} (hk : b.field.kind = .enum e) :
    b.present w = .ok ((e.encoding.decode content).toUInt64 != e.null) := by
  rw [Field.extent_enum hk hs.stored] at hread
  rw [present, if_pos hs.visible, Field.presentAt_eq, if_neg (UInt16.not_lt.mpr hsince),
    if_neg (not_not.mpr hp)]
  simp only [Field.storedAt, hk, Window.readScalar_of_read hread, Action.ok_bind]
  rfl

end

theorem reads_cell (hs : b.Stores) (hsince : b.field.since ≤ w.version)
    (hl : b.offset + b.field.extent ≤ w.limit) : b.Reads w (b.cell w) := by
  have hread : w.read b.offset b.field.extent = .ok (b.cell w) := Window.read_of_le hl
  exact {
    value := fun t hk => value_of_cell hs hread hk
    scalar := fun t hk α _ hone hsize => scalar_of_cell hs hread hk hone hsize
    text := fun t hk hc => text_of_cell hs hread hk hc
    array := fun t hk α _ hsize => array_of_cell hs hread hk hsize
    raw := fun e hk => enumRaw_of_cell hs hread hk
    bits := fun s hk => bits_of_cell hs hread hk
    present_type := fun t hk hp hl => present_of_type hs hread hsince hp hk hl
    present_enum := fun e hk hp => present_of_enum hs hread hsince hp hk }

end Binding

namespace FieldOperation

variable {α : Type} {b : Binding} {w w' : Window} {operation : FieldOperation α}

theorem run_of_not_stores (hs : operation.Suits b.field) (h : ¬ b.Stores) :
    (operation.run b w).2 = w := by
  rw [operation.run_snd]
  apply Binding.settle_keeps
  intro edit hedit
  obtain ⟨hv, hstored | ⟨-, hsuits⟩⟩ := stored_of_edit hedit
  · exact h ⟨hv, hstored⟩
  · exact hsuits hs

theorem settles_of_readsOnly {f : Field} {content : Bytes} (h : operation.readsOnly = true) :
    operation.Settles f content content := by
  cases operation with
  | reset | setValue | setScalar | setScalar? | setText | setArray | setArrayElement | setEnumRaw
  | setEnumName | setBits | setBit | setChoice => cases h
  | _ => rfl

theorem run_settles (hf : b.field.isPlain) (hs : operation.Suits b.field) (hb : b.Stores)
    (hl : b.offset + b.field.extent ≤ w.limit) (hbytes : w.limit ≤ w.bytes.length) {r : α}
    (h : operation.run b w = (.ok r, w')) :
    operation.Settles b.field (b.cell w) (b.cell w') ∧
      ∃ start part, b.offset ≤ start ∧
        start + part.length ≤ b.offset + b.field.extent ∧ w' = w.written start part := by
  cases hreads : operation.readsOnly with
  | true =>
    have hsame : w' = w := by rw [← run_of_readsOnly hreads (b := b) (w := w), h]
    subst hsame
    refine ⟨settles_of_readsOnly hreads, b.offset, [], Nat.le_refl _, Nat.le_add_right _ _, ?_⟩
    rw [Window.written, Bytes.overwrite_nil]
  | false =>
    have hsettle : b.settle (operation.edit b w.version (b.bits w)) w = (.ok ⟨⟩, w') := by
      rw [← run_edit hreads, Action.discard_apply, h]
      rfl
    rcases hedit : operation.edit b w.version (b.bits w) with e | _ | edit
    · rw [hedit] at hsettle
      cases hsettle
    · exact absurd hedit (edit_ne_none hf hb hreads)
    · rw [hedit, Binding.settle_some] at hsettle
      obtain ⟨hle, rfl⟩ := Window.write_eq_ok hsettle
      have hwithin := edit_within hf hs hedit
      have hword := w.lt_of_le_limit hl
      have hplace : b.place edit.start = b.offset + edit.shift :=
        Binding.place_eq (by rw [← Edit.shift]; omega)
      have hcell : b.cell (w.written (b.offset + edit.shift) edit.part) =
          (b.cell w).overwrite edit.shift edit.part :=
        Bytes.slice_overwrite_within hwithin (by omega)
      have hread : w.read b.offset b.field.extent = .ok (b.cell w) := Window.read_of_le hl
      have hlength : (b.cell w).length = b.field.extent := Bytes.length_slice (by omega)
      rw [hplace, hcell]
      exact ⟨settles_of_edit hf hs hlength (by omega)
          (fun s hk => Binding.bits_of_cell hb hread hk) hedit,
        b.offset + edit.shift, edit.part, Nat.le_add_right _ _, by omega, rfl⟩

end FieldOperation

structure FieldStep where
  index : Nat
  type : Type
  operation : FieldOperation type

def Block.perform (b : Block) : List FieldStep → Action Window Unit
  | [] => return
  | step :: rest => do
    let f ← b.fieldAt step.index
    let w ← get
    discard <| step.operation.run (b.bind w.version f)
    perform b rest

/-- The field is one of those that have bytes of their own in the block, at the given version. -/
structure Block.Owns (b : Block) (version : UInt16) (f : Field) : Prop where
  plain : f.isPlain
  stores : (b.bind version f).Stores

structure Block.Independent (b : Block) (version : UInt16) (limit : Nat) : Prop where
  inside : ∀ f ∈ b.fields, b.Owns version f → b.base + f.offset + f.extent ≤ limit
  apart : b.fields.Pairwise fun f g => b.Owns version f → b.Owns version g →
    Bytes.Apart (b.base + f.offset) f.extent (b.base + g.offset) g.extent

instance (b : Binding) : Decidable b.Stores :=
  decidable_of_iff (b.visible = true ∧ b.field.presence ≠ .constant)
    ⟨fun h => ⟨h.1, h.2⟩, fun h => ⟨h.visible, h.stored⟩⟩

instance (b : Block) (version : UInt16) (f : Field) : Decidable (b.Owns version f) :=
  decidable_of_iff (f.isPlain = true ∧ (b.bind version f).Stores)
    ⟨fun h => ⟨h.1, h.2⟩, fun h => ⟨h.plain, h.stores⟩⟩

instance (b : Block) (version : UInt16) (limit : Nat) : Decidable (b.Independent version limit) :=
  decidable_of_iff (_ ∧ _) ⟨fun h => ⟨h.1, h.2⟩, fun h => ⟨h.inside, h.apart⟩⟩

/-- From one content to another by operations that each make of it what they say. -/
inductive Field.History (f : Field) : List FieldStep → Bytes → Bytes → Prop
  | nil (content : Bytes) : History f [] content content
  | cons {step : FieldStep} {rest : List FieldStep} {before between after : Bytes}
      (h : step.operation.Settles f before between) (hrest : History f rest between after) :
      History f (step :: rest) before after

namespace Block

variable {b : Block} {w w' : Window}

theorem since_le_of_owns {f : Field} (h : b.Owns w.version f) : f.since ≤ w.version :=
  of_decide_eq_true (Bool.and_eq_true_iff.mp h.stores.visible).2

theorem Independent.apart_of_ne {version : UInt16} {limit : Nat}
    (h : b.Independent version limit) {i j : Nat} (hij : i ≠ j) {f g : Field}
    (hf : b.fields[i]? = some f) (hg : b.fields[j]? = some g) (hof : b.Owns version f)
    (hog : b.Owns version g) :
    Bytes.Apart (b.base + f.offset) f.extent (b.base + g.offset) g.extent := by
  obtain ⟨hi, rfl⟩ := List.getElem?_eq_some_iff.mp hf
  obtain ⟨hj, rfl⟩ := List.getElem?_eq_some_iff.mp hg
  have hpairs := List.pairwise_iff_getElem.mp h.apart
  rcases Nat.lt_or_gt_of_ne hij with hlt | hlt
  · exact hpairs i j hi hj hlt hof hog
  · exact (hpairs j i hj hi hlt hog hof).symm

theorem Independent.offset_eq (h : b.Independent w.version w.limit) {f : Field}
    (hf : f ∈ b.fields) (ho : b.Owns w.version f) :
    (b.bind w.version f).offset = b.base + f.offset :=
  Window.wordOf_of_le (w := w) (Nat.le_of_add_right_le (h.inside f hf ho))

theorem Independent.inside_limit (h : b.Independent w.version w.limit) {f : Field}
    (hf : f ∈ b.fields) (ho : b.Owns w.version f) :
    (b.bind w.version f).offset + f.extent ≤ w.limit := by
  rw [h.offset_eq hf ho]
  exact h.inside f hf ho

theorem perform_cons {step : FieldStep} {rest : List FieldStep}
    (h : b.perform (step :: rest) w = (.ok ⟨⟩, w')) :
    ∃ f r v, b.fields[step.index]? = some f ∧
      step.operation.run (b.bind w.version f) w = (.ok r, v) ∧ b.perform rest v = (.ok ⟨⟩, w') := by
  obtain ⟨f, w₁, hf, h⟩ := Action.bind_eq_ok h
  obtain ⟨hfield, rfl⟩ := Prod.mk.inj hf
  obtain ⟨w₂, w₃, hget, h⟩ := Action.bind_eq_ok h
  cases hget
  obtain ⟨_, v, hrun, hrest⟩ := Action.bind_eq_ok h
  have hfound : b.fields[step.index]? = some f := by
    unfold fieldAt at hfield
    split at hfield
    next hat =>
      cases hfield
      exact hat
    next => cases hfield
  cases hresult : step.operation.run (b.bind w.version f) w with
  | mk result v' =>
    rw [Action.discard_apply, hresult] at hrun
    cases result with
    | ok r =>
      cases hrun
      exact ⟨f, r, _, hfound, hresult, hrest⟩
    | error e => cases hrun

structure Kept (b : Block) (w w' : Window) : Prop where
  frame : w' = { w with bytes := w'.bytes }
  length_eq : w'.bytes.length = w.bytes.length
  outside (place : Nat) (h : ∀ f ∈ b.fields, b.Owns w.version f →
    place < b.base + f.offset ∨ b.base + f.offset + f.extent ≤ place) :
    w'.bytes[place]? = w.bytes[place]?

namespace Kept

theorem refl (b : Block) (w : Window) : b.Kept w w :=
  ⟨rfl, rfl, fun _ _ => rfl⟩

theorem version_eq (h : b.Kept w w') : w'.version = w.version := by
  rw [h.frame]

theorem limit_eq (h : b.Kept w w') : w'.limit = w.limit := by
  rw [h.frame]

theorem trans {w'' : Window} (h : b.Kept w w') (h' : b.Kept w' w'') : b.Kept w w'' where
  frame := by
    rw [h'.frame, h.frame]
  length_eq := h'.length_eq.trans h.length_eq
  outside place houtside := by
    rw [h'.outside place (by rw [h.version_eq]; exact houtside), h.outside place houtside]

end Kept

theorem step_settles (hi : b.Independent w.version w.limit) (hbytes : w.limit ≤ w.bytes.length)
    {step : FieldStep} {f : Field} (hf : b.fields[step.index]? = some f) (hplain : f.isPlain)
    (hs : step.operation.Suits f) {r : step.type} {v : Window}
    (h : step.operation.run (b.bind w.version f) w = (.ok r, v)) :
    b.Kept w v ∧ ∀ i g, b.fields[i]? = some g → b.Owns w.version g →
      (step.index = i → step.operation.Settles g ((b.bind w.version g).cell w)
        ((b.bind w.version g).cell v)) ∧
      (step.index ≠ i → (b.bind w.version g).cell v = (b.bind w.version g).cell w) := by
  -- A field without bytes of its own stores nothing, even in success.
  by_cases howns : b.Owns w.version f
  · have hinside := hi.inside f (List.mem_of_getElem? hf) howns
    obtain ⟨hsettles, start, part, hstart, hstop, rfl⟩ := FieldOperation.run_settles hplain hs
      howns.stores (hi.inside_limit (List.mem_of_getElem? hf) howns) hbytes h
    rw [hi.offset_eq (List.mem_of_getElem? hf) howns] at hstart hstop
    have hwrite : start + part.length ≤ w.bytes.length :=
      Nat.le_trans hstop (Nat.le_trans hinside hbytes)
    refine ⟨⟨rfl, Bytes.length_overwrite hwrite, ?_⟩, ?_⟩
    · intro place houtside
      have hplace := houtside f (List.mem_of_getElem? hf) howns
      have hout : place < start ∨ start + part.length ≤ place :=
        hplace.imp (fun hlt => Nat.lt_of_lt_of_le hlt hstart) fun hle => Nat.le_trans hstop hle
      rw [Window.written_bytes, Bytes.getElem?_overwrite hwrite, if_pos hout]
    · intro i g hg hog
      refine ⟨?_, ?_⟩
      · rintro rfl
        cases hf.symm.trans hg
        exact hsettles
      · intro hne
        have hapart := hi.apart_of_ne hne hf hg howns hog
        rw [Binding.cell, Binding.cell, hi.offset_eq (List.mem_of_getElem? hg) hog]
        exact Bytes.slice_overwrite_apart hwrite (hapart.symm.part hstart hstop).symm
  · have hsame : v = w := by
      have hstores : ¬ (b.bind w.version f).Stores := fun hb => howns ⟨hplain, hb⟩
      rw [← FieldOperation.run_of_not_stores hs hstores (w := w), h]
    subst hsame
    refine ⟨.refl b v, ?_⟩
    intro i g hg hog
    refine ⟨?_, fun _ => rfl⟩
    rintro rfl
    cases hf.symm.trans hg
    exact absurd hog howns

/-- After any operations on the fields of a table whose fields are independent, all of them with
success, each field has the history of the operations on itself, and it is read from what they have
made of its bytes. No other byte has changed, nor has the position. -/
theorem perform_independent {steps : List FieldStep} (hbytes : w.limit ≤ w.bytes.length)
    (hi : b.Independent w.version w.limit)
    (hs : ∀ step ∈ steps, ∀ f, b.fields[step.index]? = some f →
      f.isPlain ∧ step.operation.Suits f)
    (h : b.perform steps w = (.ok ⟨⟩, w')) :
    b.Kept w w' ∧ ∀ i f, b.fields[i]? = some f → b.Owns w.version f →
      f.History (steps.filter fun step => step.index = i) ((b.bind w.version f).cell w)
        ((b.bind w.version f).cell w') ∧
      (b.bind w.version f).Reads w ((b.bind w.version f).cell w) ∧
      (b.bind w.version f).Reads w' ((b.bind w.version f).cell w') := by
  -- The cells at both ends are read, and the history between them grows by one operation a step.
  induction steps generalizing w with
  | nil =>
    cases h
    refine ⟨.refl b _, ?_⟩
    intro i f hf hof
    have hreads := Binding.reads_cell hof.stores (since_le_of_owns hof)
      (hi.inside_limit (List.mem_of_getElem? hf) hof)
    exact ⟨.nil _, hreads, hreads⟩
  | cons step rest ih =>
    obtain ⟨f, r, v, hf, hrun, hrest⟩ := perform_cons h
    obtain ⟨hplain, hsuits⟩ := hs step List.mem_cons_self f hf
    obtain ⟨hkept, hcells⟩ := step_settles hi hbytes hf hplain hsuits hrun
    obtain ⟨hkept', hlater⟩ := ih (w := v) (by rw [hkept.limit_eq, hkept.length_eq]; exact hbytes)
      (by rw [hkept.version_eq, hkept.limit_eq]; exact hi)
      (fun step hstep => hs step (List.mem_cons_of_mem _ hstep)) hrest
    refine ⟨hkept.trans hkept', ?_⟩
    intro i g hg hog
    have hreads := Binding.reads_cell hog.stores (since_le_of_owns hog)
      (hi.inside_limit (List.mem_of_getElem? hg) hog)
    obtain ⟨hsettled, hsame⟩ := hcells i g hg hog
    rw [hkept.version_eq] at hlater
    obtain ⟨hhistory, -, hreads'⟩ := hlater i g hg hog
    refine ⟨?_, hreads, hreads'⟩
    by_cases hindex : step.index = i
    · rw [List.filter_cons_of_pos (by simpa using hindex)]
      exact .cons (hsettled hindex) hhistory
    · rw [List.filter_cons_of_neg (by simpa using hindex), ← hsame hindex]
      exact hhistory

end Block

namespace Market.EmptyBook

def steps : List FieldStep :=
  [⟨0, Unit, .setScalar (991 : UInt64)⟩, ⟨3, Unit, .setScalar (7 : UInt32)⟩,
    ⟨1, Unit, .setBit 7 true⟩, ⟨2, Unit, .reset⟩, ⟨3, Unit, .reset⟩]

def body : Block :=
  ⟨8, definition.fields, true⟩

def window : Window :=
  ⟨List.replicate 24 0, 24, 24, 2, by decide⟩

end Market.EmptyBook

theorem Block.perform_independent_emptyBook :
    ∃ w', Market.EmptyBook.body.perform Market.EmptyBook.steps Market.EmptyBook.window =
        (.ok ⟨⟩, w') ∧
      Market.EmptyBook.body.Kept Market.EmptyBook.window w' ∧
      ∀ i f, Market.EmptyBook.body.fields[i]? = some f → Market.EmptyBook.body.Owns 2 f →
        f.History (Market.EmptyBook.steps.filter fun step => step.index = i)
          ((Market.EmptyBook.body.bind 2 f).cell Market.EmptyBook.window)
          ((Market.EmptyBook.body.bind 2 f).cell w') ∧
        (Market.EmptyBook.body.bind 2 f).Reads Market.EmptyBook.window
          ((Market.EmptyBook.body.bind 2 f).cell Market.EmptyBook.window) ∧
        (Market.EmptyBook.body.bind 2 f).Reads w' ((Market.EmptyBook.body.bind 2 f).cell w') := by
  have hok : (Market.EmptyBook.body.perform Market.EmptyBook.steps
      Market.EmptyBook.window).1.isOk = true := by decide +kernel
  obtain ⟨_, w', hrun⟩ := Action.exists_of_isOk hok
  refine ⟨w', hrun, perform_independent (by decide) (by decide +kernel) ?_ hrun⟩
  intro step hstep f hf
  simp only [Market.EmptyBook.steps, List.mem_cons, List.not_mem_nil, or_false] at hstep
  rcases hstep with rfl | rfl | rfl | rfl | rfl
  · cases hf
    exact ⟨rfl, inferInstanceAs (LawfulElement UInt64)⟩
  · cases hf
    exact ⟨rfl, inferInstanceAs (LawfulElement UInt32)⟩
  · cases hf
    exact ⟨rfl, rfl⟩
  · cases hf
    exact ⟨rfl, trivial⟩
  · cases hf
    exact ⟨rfl, trivial⟩

namespace Market

def quota : Field :=
  (Field.required "quota" 1 0
    (.type { TypeDef.plain "Quota" .uint8 1 with null? := some (.uint 300) })).optional

def markedByte : List Field :=
  [(Field.required "mark" 1 0 (.type (.plain "Mark" .uint8 0))).optional,
    .required "byte" 2 0 (.type Types.uint8)]

end Market

theorem Block.cut_null_and_borrowed_presence :
    (∃ w', Block.perform ⟨0, [Market.quota], true⟩ [⟨0, Unit, .reset⟩] ⟨[1], 1, 1, 2, by decide⟩ =
        (.ok ⟨⟩, w') ∧
      (Market.quota.bindAt 0 true 2).value w' = .ok (.scalar (.uint 44)) ∧
      (Market.quota.bindAt 0 true 2).present w' = .ok true) ∧
    Block.Independent ⟨0, Market.markedByte, true⟩ 2 1 ∧
    ∃ mark ∈ Market.markedByte.head?, ∃ w',
      (mark.bindAt 0 true 2).present ⟨[1], 1, 1, 2, by decide⟩ = .ok true ∧
      Block.perform ⟨0, Market.markedByte, true⟩ [⟨1, Unit, .setScalar (255 : UInt8)⟩]
          ⟨[1], 1, 1, 2, by decide⟩ = (.ok ⟨⟩, w') ∧
      (mark.bindAt 0 true 2).present w' = .ok false := by
  refine ⟨⟨_, rfl, rfl, rfl⟩, by decide, _, rfl, _, rfl, rfl, rfl⟩

end SimpleBinary
