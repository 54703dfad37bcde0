import SimpleBinary.Proofs.Fixed
import SimpleBinary.Proofs.Presence
import SimpleBinary.Proofs.Suitable

namespace SimpleBinary

namespace Word

variable {w : Window}

theorem sum_eq {a b : Nat} (h : a + b ≤ Window.maxPosition) : sum a b = .ok (wordOf (a + b)) := by
  rw [Window.wordOf_of_le_max h]
  exact if_pos h

theorem product_eq {a b : Nat} (h : a * b ≤ Window.maxPosition) :
    product a b = .ok (wordOf (a * b)) := by
  rw [Window.wordOf_of_le_max h]
  exact if_pos h

theorem check_eq (h : w.limit ≤ Window.maxPosition) (start size : Nat) :
    check w start size = w.check start size := by
  unfold check Window.check
  by_cases hmax : Window.maxPosition < start + size
  · rw [if_pos hmax, if_neg (by omega), Nat.min_eq_right (Nat.le_of_lt hmax)]
  · rw [if_neg hmax, Nat.min_eq_left (Nat.le_of_not_lt hmax)]

theorem okOrShort_check (w : Window) (start size : Nat) : OkOrShort (w.check start size) := by
  unfold Window.check
  split
  · exact okOrShort_ok _
  · exact okOrShort_error trivial

theorem reads_read (hw : w.Sound) (hmax : w.limit ≤ Window.maxPosition) (start size : Nat) :
    Reads (read start size) (w.read start size) w := by
  apply Reads.get_bind
  rw [check_eq hmax, Window.read]
  by_cases hle : start + size ≤ w.limit
  · rw [Window.check_of_le hle]
    have hstop : start + size ≤ w.bytes.length := Nat.le_trans hle hw.limit_le
    have hslice : slice w.bytes start (start + size) = .ok (w.bytes.slice start size) := by
      rw [slice, if_pos ⟨Nat.le_add_right _ _, hstop⟩, Nat.add_sub_cancel_left]
    refine ⟨?_, okOrShort_ok _⟩
    change (liftM (slice w.bytes start (start + size)) : WordAction Window Bytes) w = _
    rw [hslice]
    rfl
  · rw [Window.check_of_lt (Nat.lt_of_not_le hle)]
    exact ⟨rfl, okOrShort_error trivial⟩

theorem reads_readScalar (hw : w.Sound) (hmax : w.limit ≤ Window.maxPosition) (start : Nat)
    (p : Primitive) : Reads (readScalar start p) (w.readScalar start p) w := by
  have hmap : w.readScalar start p =
      (w.read start p.size >>= fun bytes => .ok (p.decode bytes)) := by
    rw [Window.readScalar]
    cases w.read start p.size <;> rfl
  rw [hmap]
  apply Reads.bind (reads_read hw hmax start p.size)
  intro bytes hread
  obtain ⟨hle, rfl⟩ := Window.read_eq_ok.mp hread
  have hlength : (w.bytes.slice start p.size).length = p.size :=
    Bytes.length_slice (Nat.le_trans hle hw.limit_le)
  have hslice : slice (w.bytes.slice start p.size) 0 p.size = .ok (w.bytes.slice start p.size) := by
    rw [slice, if_pos ⟨Nat.zero_le _, Nat.le_of_eq hlength.symm⟩, Nat.sub_zero,
      Bytes.slice_self (Nat.le_of_eq hlength)]
  exact Reads.fault_bind hslice (Reads.ok _)

def storedAt (f : Field) (offset : Nat) : WordAction Window Bool :=
  match f.kind with
  | .type t => do return !t.primitive.equal (← readScalar offset t.primitive) t.null
  | .enum e => do return (← readScalar offset e.encoding).toUInt64 != e.null
  | .composite c =>
    match c.fields with
    | first :: _ => do presentAt first (← sum offset first.offset)
    | [] => return true
  | .set _ | .group _ | .data _ => return true

theorem presentAt_eq (f : Field) (offset : Nat) :
    presentAt f offset = (do
      let w ← get
      if w.version < f.since then return false
      else if f.presence ≠ .optional then return true
      else storedAt f offset) := by
  obtain ⟨name, id, start, kind, presence, constant, since⟩ := f
  cases kind with
  | composite c =>
    obtain ⟨cname, fields, length⟩ := c
    cases fields <;> rfl
  | _ => rfl

theorem reads_presentAt (hw : w.Sound) (hmax : w.limit ≤ Window.maxPosition) (f : Field) :
    ∀ base, base + f.span ≤ Window.maxPosition →
      Reads (presentAt f (base + f.offset)) (f.presentAt w (base + f.offset)) w := by
  induction f using Field.first_member_induction with
  | step f ih =>
    intro base hspan
    rw [presentAt_eq, Field.presentAt_eq]
    apply Reads.get_bind
    refine Reads.ite (fun _ => .ok _) fun _ => ?_
    refine Reads.ite (fun _ => .ok _) fun _ => ?_
    unfold storedAt Field.storedAt
    cases hk : f.kind with
    | type t => exact Reads.bind (reads_readScalar hw hmax _ _) fun _ _ => Reads.ok _
    | enum e => exact Reads.bind (reads_readScalar hw hmax _ _) fun _ _ => Reads.ok _
    | composite c =>
      dsimp only
      cases hc : c.fields with
      | nil => exact Reads.ok _
      | cons first rest =>
        have hreach : first.span ≤ spanFields c.fields :=
          span_le_spanFields (hc ▸ List.mem_cons_self)
        have hoffset := first.offset_le_span
        rw [Field.span_composite hk] at hspan
        have hplace : wordOf (base + f.offset + first.offset) = _ :=
          Window.wordOf_of_le_max (by omega)
        apply Reads.fault_bind (sum_eq (by omega))
        dsimp only
        rw [hplace]
        exact ih c hk first (by simp [hc]) (base + f.offset) (by omega)
    | _ => exact Reads.ok _

theorem agrees_advance (hw : w.Sound) (hmax : w.limit ≤ Window.maxPosition) (size : Nat) :
    AgreesAction (advance size) (Window.advance size) w := by
  apply AgreesAction.get_bind
  rw [check_eq hmax]
  apply AgreesAction.lift_bind hw (.lift (okOrShort_check w w.position size))
  intro stop hstop
  obtain ⟨hle, rfl⟩ := Window.check_eq_ok.mp hstop
  rw [if_neg (Nat.not_lt.mpr hle)]
  exact AgreesAction.set_bind ⟨size, hle, rfl⟩ (.ok (hw.moved hle) _)

theorem reads_ofBytes (bytes : Bytes) (p : Primitive) (w : Window) :
    Reads (do
      let whole ← difference bytes.length (bytes.length % p.size)
      return Value.array ⟨p, ← slice bytes 0 whole⟩)
    (.ok (.array (.ofBytes bytes p))) w := by
  have hrest : bytes.length % p.size ≤ bytes.length := Nat.mod_le _ _
  have hdifference : difference bytes.length (bytes.length % p.size) =
    .ok (bytes.length - bytes.length % p.size) := if_pos hrest
  have hslice : slice bytes 0 (bytes.length - bytes.length % p.size) =
      .ok (bytes.take (bytes.length - bytes.length % p.size)) := by
    rw [slice, if_pos ⟨Nat.zero_le _, Nat.sub_le _ _⟩, Nat.sub_zero, Bytes.slice, List.drop_zero]
  exact Reads.fault_bind hdifference (Reads.fault_bind hslice (Reads.ok _))

theorem sum_of_payload (hmax : w.limit ≤ Window.maxPosition) {d : DataView} {start size : Nat}
    (hspan : w.position + d.headerLength ≤ Window.maxPosition)
    (h : d.payload w = .ok (start, size)) :
    sum d.headerLength size = .ok (wordOf (d.headerLength + size)) := by
  obtain ⟨count, -, hstart, -, -, hle⟩ := DataView.payload_eq_ok h
  rw [Window.wordOf_of_le_max hspan] at hstart
  exact sum_eq (by omega)

section

variable (hw : w.Sound) (hmax : w.limit ≤ Window.maxPosition) {b : Binding}
include hw hmax

theorem reads_present {base : Nat} (hb : b.offset = wordOf (base + b.field.offset))
    (hspan : base + b.field.span ≤ Window.maxPosition) : Reads (present b) (b.present w) w := by
  have hoffset := b.field.offset_le_span
  rw [Window.wordOf_of_le_max (by omega)] at hb
  unfold present Binding.present
  rw [hb]
  exact Reads.ite (fun _ => reads_presentAt hw hmax b.field base hspan) fun _ => .ok false

theorem reads_value {t : TypeDef} (hk : b.field.kind = .type t) (hc : b.field.ConstantSuits)
    (ht : t.extent ≤ Window.maxPosition) : Reads (value b) (b.value w) w := by
  simp only [value, Binding.value, Binding.typeDef_eq hk, Action.ok_bind, lift_ok_bind]
  by_cases hp : b.field.presence = .constant
  · have hconstant := hc hp
    rw [hk] at hconstant
    obtain ⟨c, hconstant⟩ := hconstant
    simp only [Binding.constant?_of_constant hp hconstant, Action.ok_bind, lift_ok_bind]
    exact Reads.ok _
  · simp only [Binding.constant?_of_stored hp, Action.ok_bind, lift_ok_bind]
    apply Reads.ite
    · intro _
      apply Reads.ite
      · intro _
        exact Reads.bind (reads_readScalar hw hmax _ _) fun value _ => .ok _
      · exact fun _ => .ok _
    · intro _
      have hproduct : product t.primitive.size t.length = .ok t.encodedLength := product_eq ht
      have hbytes (bytes : Bytes) := Reads.ite
        (fun _ : t.isText = true => Reads.ok (Value.text bytes.untilZero))
        fun _ => reads_ofBytes bytes t.primitive w
      apply Reads.fault_bind hproduct
      apply Reads.ite
      · exact fun _ => Reads.bind (reads_read hw hmax _ _) fun bytes _ => hbytes bytes
      · exact fun _ => hbytes []

theorem reads_enumRaw {e : EnumDef} (hk : b.field.kind = .enum e) (hc : b.field.ConstantSuits) :
    Reads (enumRaw b) (b.enumRaw w) w := by
  simp only [enumRaw, Binding.enumRaw, Binding.enumDef_eq hk, Action.ok_bind, lift_ok_bind]
  by_cases hp : b.field.presence = .constant
  · have hconstant := hc hp
    rw [hk] at hconstant
    obtain ⟨c, n, hconstant, hn⟩ := hconstant
    simp only [Binding.constantRaw?_of_constant hp hconstant hn, Action.ok_bind, lift_ok_bind]
    exact Reads.ok _
  · simp only [Binding.constantRaw?_of_stored hp, Action.ok_bind, lift_ok_bind]
    apply Reads.ite
    · exact fun _ => Reads.bind (reads_readScalar hw hmax _ _) fun value _ => .ok _
    · exact fun _ => .ok _

theorem reads_enumName? {e : EnumDef} (hk : b.field.kind = .enum e)
    (hc : b.field.ConstantSuits) : Reads (enumName? b) (b.enumName? w) w := by
  simp only [enumName?, Binding.enumName?, Binding.enumDef_eq hk, Action.ok_bind, lift_ok_bind]
  exact Reads.bind (reads_enumRaw hw hmax hk hc) fun raw _ => .ok _

theorem reads_bits {s : SetDef} (hk : b.field.kind = .set s) (hc : b.field.ConstantSuits) :
    Reads (bits b) (b.bits w) w := by
  simp only [bits, Binding.bits, Binding.setDef_eq hk, Action.ok_bind, lift_ok_bind]
  by_cases hp : b.field.presence = .constant
  · have hconstant := hc hp
    rw [hk] at hconstant
    obtain ⟨c, set, hconstant, hset⟩ := hconstant
    simp only [Binding.constant?_of_constant hp hconstant, Action.ok_bind, lift_ok_bind]
    cases c with
    | scalar value => exact Reads.ok _
    | text characters => cases hset
  · simp only [Binding.constant?_of_stored hp, Action.ok_bind, lift_ok_bind]
    apply Reads.ite
    · exact fun _ => Reads.bind (reads_read hw hmax _ _) fun bytes _ => .ok _
    · exact fun _ => .ok _

theorem reads_choices {s : SetDef} (hk : b.field.kind = .set s) (hc : b.field.ConstantSuits) :
    Reads (choices b) (b.choices w) w := by
  simp only [choices, Binding.choices, Binding.setDef_eq hk, Action.ok_bind, lift_ok_bind]
  exact Reads.bind (reads_bits hw hmax hk hc) fun set _ => Reads.get_bind (.ok _)

section

variable {d : DataView}
  (hspan : w.limit + max d.definition.lengthMember.offset d.headerLength ≤ Window.maxPosition)
include hspan

theorem reads_length : Reads (length d) (d.length w) w := by
  unfold length DataView.length
  apply Reads.ite
  · exact fun _ => .ok 0
  · intro _
    have hposition := hw.position_le
    apply Reads.get_bind
    apply Reads.fault_bind (sum_eq (by omega))
    exact Reads.bind (reads_readScalar hw hmax _ _) fun count _ => .ok _

theorem reads_payload : Reads (payload d) (d.payload w) w := by
  have hposition := hw.position_le
  apply Reads.bind (reads_length hw hmax hspan)
  intro count _
  apply Reads.get_bind
  apply Reads.fault_bind (sum_eq (by omega))
  apply Reads.ite
  · intro _
    apply Reads.throw_bind
    trivial
  · intro hle
    have hproduct : product count d.elementSize = .ok (count * d.elementSize) :=
      if_pos (Nat.le_of_not_lt hle)
    apply Reads.fault_bind hproduct
    rw [check_eq hmax]
    exact Reads.bind (Reads.discard (Reads.lift (okOrShort_check w _ _))) fun _ _ => .ok _

theorem agrees_dataValue : AgreesAction (dataValue d) d.value w := by
  have hposition := hw.position_le
  apply AgreesAction.ite
  · exact fun _ => .ok hw []
  · intro _
    apply AgreesAction.query_bind hw (reads_payload hw hmax hspan)
    rintro ⟨start, size⟩ hpayload
    apply AgreesAction.fault_bind (sum_of_payload hmax (by omega) hpayload)
    apply AgreesAction.bind (.discard hw (agrees_advance hw hmax _))
    intro _ w' _ hforward
    apply AgreesAction.model_get_bind
    exact .lift (hforward.sound hw)
      (reads_read (hforward.sound hw) (by rwa [hforward.limit_eq]) _ _)

theorem agrees_skipData : AgreesAction (skipData d) d.skip w := by
  have hposition := hw.position_le
  apply AgreesAction.ite
  · exact fun _ => .ok hw 0
  · intro _
    apply AgreesAction.query_bind hw (reads_length hw hmax hspan)
    intro count _
    apply AgreesAction.query_bind hw (reads_payload hw hmax hspan)
    rintro ⟨start, size⟩ hpayload
    apply AgreesAction.fault_bind (sum_of_payload hmax (by omega) hpayload)
    apply AgreesAction.bind (.discard hw (agrees_advance hw hmax _))
    exact fun _ _ _ hforward => .ok (hforward.sound hw) count

end

theorem agrees_bindGroup (f : Field) (g : GroupDef) (visible : Bool)
    (hspan : w.limit + max g.blockLengthMember.offset g.numInGroupMember.offset ≤
      Window.maxPosition) :
    AgreesAction (bindGroup f g visible) (GroupView.bind f g visible) w := by
  have hposition := hw.position_le
  have hlength : sum w.position g.blockLengthMember.offset = _ := sum_eq (by omega)
  have hnumber : sum w.position g.numInGroupMember.offset = _ := sum_eq (by omega)
  apply AgreesAction.get_bind
  apply AgreesAction.ite
  · exact fun _ => .ok hw _
  · intro _
    rw [check_eq hmax]
    apply AgreesAction.discard_bind hw (.lift (okOrShort_check w _ _))
    apply AgreesAction.fault_bind hlength
    apply AgreesAction.lift_bind hw (reads_readScalar hw hmax _ _)
    intro blockLength _
    apply AgreesAction.fault_bind hnumber
    apply AgreesAction.lift_bind hw (reads_readScalar hw hmax _ _)
    intro count _
    apply AgreesAction.bind (.discard hw (agrees_advance hw hmax _))
    exact fun _ _ _ hforward => .ok (hforward.sound hw) _

end

theorem next_of_le {view : GroupView} (hw : w.Sound) (hmax : w.limit ≤ Window.maxPosition)
    (hi : view.index < view.count) (hc : view.count ≤ Window.maxPosition)
    (hle : w.position + view.blockLength ≤ w.limit) :
    next view w =
      .ok (.ok (w.position, view.entered w.position), w.moved view.blockLength) := by
  have hn : view.hasNext = true := decide_eq_true hi
  have hadvance := (agrees_advance hw hmax view.blockLength).same
  rw [Window.advance_of_le hle] at hadvance
  have hsum : sum view.index 1 = .ok (view.index + 1) := if_pos (by omega)
  simp only [next, hn, Bool.not_true, Bool.false_eq_true, if_false, bind_of_ok hadvance, hsum]
  rfl

theorem next_of_lt {view : GroupView} (hw : w.Sound) (hmax : w.limit ≤ Window.maxPosition)
    (hi : view.index < view.count) (hlt : w.limit < w.position + view.blockLength) :
    next view w = .ok (.error (w.tooShort (w.position + view.blockLength)), w) := by
  have hn : view.hasNext = true := decide_eq_true hi
  have hadvance := (agrees_advance hw hmax view.blockLength).same
  rw [Window.advance_of_lt hlt] at hadvance
  simp only [next, hn, Bool.not_true, Bool.false_eq_true, if_false]
  exact bind_of_error hadvance

theorem agrees_elements {readWords : Nat → StateT Window (Except Fault) (List Reading)}
    {read : Nat → StateM Window (List Reading)} {limit : Nat} (hmax : limit ≤ Window.maxPosition)
    (hread : ∀ base w, w.Sound → w.limit = limit → base ≤ limit →
      Agrees SafeReadings (readWords base) (read base) w)
    (n : Nat) (view : GroupView) (w : Window) (hw : w.Sound) (hl : w.limit = limit)
    (hn : view.index + n ≤ view.count) (hc : view.count ≤ Window.maxPosition) :
    Agrees SafeElements (elements readWords n view)
      (fun w => ((Walk.elements read n ⟨view, w⟩).1, (Walk.elements read n ⟨view, w⟩).2.window))
      w := by
  -- The index stays below the count, which is a word: the step of a visit is no fault.
  induction n generalizing view w with
  | zero => exact Agrees.pure hw (List.forall_mem_nil _)
  | succ n ih =>
    have hi : view.index < view.count := by omega
    have hmax' : w.limit ≤ Window.maxPosition := by rwa [hl]
    by_cases hle : w.position + view.blockLength ≤ w.limit
    · have hfirst := hread w.position (w.moved view.blockLength) (hw.moved hle) hl
        (by rw [← hl]; exact hw.position_le)
      have hforward : w.Forward (w.moved view.blockLength) := ⟨_, hle, rfl⟩
      have hrest := ih (view.entered w.position) (read w.position (w.moved view.blockLength)).2
        (hfirst.forward.sound (hw.moved hle)) (hfirst.forward.limit_eq.trans hl)
        (by simp only [GroupView.entered]; omega) hc
      refine ⟨?_, ?_, ?_⟩
      · have hnext : (next view).run w = _ := next_of_le hw hmax' hi hc hle
        simp only [elements, Walk.elements_succ_of_le hi hle, state_bind_of_ok hnext]
        rw [state_bind_of_ok hfirst.same, state_bind_of_ok hrest.same]
        rfl
      · simp only [Walk.elements_succ_of_le hi hle]
        refine List.forall_mem_cons.mpr ⟨⟨okOrShort_ok _, ?_⟩, hrest.safe⟩
        intro readings hreadings
        cases hreadings
        exact hfirst.safe
      · simp only [Walk.elements_succ_of_le hi hle]
        exact (hforward.trans hfirst.forward).trans hrest.forward
    · have hlt := Nat.lt_of_not_le hle
      refine ⟨?_, ?_, ?_⟩
      · have hnext : (next view).run w = _ := next_of_lt hw hmax' hi hlt
        simp only [elements, Walk.elements_succ_of_lt hi hlt, state_bind_of_ok hnext]
        rfl
      · simp only [Walk.elements_succ_of_lt hi hlt]
        refine List.forall_mem_cons.mpr ⟨⟨okOrShort_error trivial, ?_⟩, List.forall_mem_nil _⟩
        intro readings hreadings
        cases hreadings
      · simp only [Walk.elements_succ_of_lt hi hlt]
        exact .rfl hw

theorem bindAt_eq {f : Field} {base : Nat} (h : base + f.span ≤ Window.maxPosition)
    (enclosed : Bool) (w : Window) :
    bindAt f base enclosed w = .ok (f.bindAt base enclosed w.version, w) := by
  have hoffset := f.offset_le_span
  have hsum : sum base f.offset = _ := sum_eq (by omega)
  simp only [bindAt, hsum]
  rfl

end Word

end SimpleBinary
