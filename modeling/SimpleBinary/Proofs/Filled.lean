import SimpleBinary.Market.Stream
import SimpleBinary.Proofs.Accessors
import SimpleBinary.Proofs.JsonImport
import SimpleBinary.Proofs.Printing

namespace SimpleBinary

namespace ElementOf

variable {α : Type} [Element α] {p : Primitive} [ElementOf α p]

theorem decode_toScalar (hf : p.isFloat = false) (value : α) :
    p.decode (p.encode (Element.toScalar value)) = Element.toScalar value := by
  rw [encode_eq hf, decode_eq (α := α), FaithfulElement.decode_encode]

theorem represents (hf : p.isFloat = false) (value : α) :
    p.Represents (Element.toScalar value) := by
  rw [← decode_toScalar hf value]
  exact Primitive.represents_decode _ _

theorem equal_iff (hf : p.isFloat = false) {a b : α} :
    p.equal (Element.toScalar a) (Element.toScalar b) ↔ a = b := by
  constructor
  · intro h
    have hencode := Primitive.encode_eq_of_equal hf h
    rw [encode_eq hf, encode_eq hf] at hencode
    rw [← FaithfulElement.decode_encode a, hencode, FaithfulElement.decode_encode]
  · rintro rfl
    exact Primitive.equal_self _ _

end ElementOf

namespace Field.Numbers

variable {f : Field} {t : TypeDef} {α : Type} [Element α]

theorem admits (hf : f.Numbers t α) (value : α) : t.admits (.ofElement value) :=
  have := hf.element
  ⟨hf.single, ElementOf.represents hf.whole value⟩

theorem nullable (hf : f.Numbers t α) : t.nullable := by
  have := hf.element
  have hnull : t.primitive.decode (t.primitive.encode t.null) = t.null := by
    rw [← hf.null, ElementOf.decode_toScalar hf.whole]
  rw [TypeDef.nullable, hf.single, hnull, beq_self_eq_true, beq_self_eq_true]
  rfl

theorem isAbsent_iff (hf : f.Numbers t α) {value : α} :
    t.isAbsent (.ofElement value) ↔ value = Element.ofScalar t.null := by
  have := hf.element
  rw [Value.ofElement, TypeDef.isAbsent, ← hf.null, ElementOf.equal_iff hf.whole, hf.null]

theorem setScalar?_eq_setValue (hf : f.Numbers t α) (hp : f.presence = .optional) (base : Nat)
    (w : Window) (value? : Option α) :
    (f.bindAt base true w.version).setScalar? value? w =
      (f.bindAt base true w.version).setValue
        (.ofElement (value?.getD (Element.ofScalar t.null))) w := by
  have := hf.element
  cases value? with
  | some value =>
    exact congrFun (Binding.setScalar_eq_setValue hf.kind hf.single hf.whole value) w
  | none =>
    by_cases hsince : f.since ≤ w.version
    · exact Binding.reset_eq_setValue hf.kind (Field.visible_bindAt hsince base) hsince hp hf.whole
        (hf.admits _) hf.nullable (hf.isAbsent_iff.mpr rfl)
    · have hv : (f.bindAt base true w.version).visible = false := decide_eq_false hsince
      have hb : (f.bindAt base true w.version).field = f := rfl
      generalize f.bindAt base true w.version = b at hv hb
      subst hb
      simp only [Binding.setScalar?, Binding.reset, Binding.setValue, Binding.requireVisible,
        Binding.typeDef_eq hf.kind, Binding.constant?_of_stored hf.stored, hv, Bool.not_false,
        if_true, Action.bind_apply, Action.get_apply, Action.lift_apply, Action.throw_apply]

section

variable {b : Binding} {w : Window} {value : α}

theorem scalar_of_value (hf : b.field.Numbers t α) (h : b.value w = .ok (.ofElement value)) :
    b.scalar α w = .ok value := by
  have := hf.element
  rw [Binding.value_eq_scalar hf.kind hf.stored hf.single hf.null] at h
  cases hread : b.scalar α w with
  | error e =>
    rw [hread] at h
    cases h
  | ok read =>
    rw [hread] at h
    injection h with h
    injection h with h
    have hequal : t.primitive.equal (Element.toScalar read) (Element.toScalar value) := by
      rw [h]
      exact Primitive.equal_self _ _
    rw [(ElementOf.equal_iff hf.whole).mp hequal]

theorem scalar?_of_value [DecidableEq α] (hf : b.field.Numbers t α)
    (hp : b.field.presence = .optional) (hv : b.visible = true) (hs : b.field.since ≤ w.version)
    (hw : w.limit ≤ w.bytes.length) {value? : Option α}
    (h : b.value w = .ok (.ofElement (value?.getD (Element.ofScalar t.null)))) :
    b.scalar? α w = .ok (value?.filter (· ≠ Element.ofScalar t.null)) := by
  have hpresent := Binding.present_of_value ⟨hv, hf.stored⟩ hf.kind
    (TypeDef.extent_lt_of_nullable hf.nullable) hs (fun _ => hf.nullable) hw h
  simp only [hp, true_and, hf.isAbsent_iff] at hpresent
  rw [Binding.scalar?, hpresent, Action.ok_bind, hf.scalar_of_value h]
  cases value? with
  | none => simp [pure, Except.pure]
  | some value =>
    by_cases hnull : value = Element.ofScalar t.null <;>
      simp [hnull, Option.filter, pure, Except.pure]

end

end Field.Numbers

/-- On the states that hold a part in a place, the action is another one on that part. -/
def Action.Performs {σ τ α : Type} (place : τ → σ) (x : Action σ α) (a : Action τ α) : Prop :=
  ∀ t, x (place t) = ((a t).1, place (a t).2)

namespace Action.Performs

variable {σ τ α β : Type} {place : τ → σ}

theorem bind {x : Action σ α} {a : Action τ α} {f : α → Action σ β} {g : α → Action τ β}
    (hx : Performs place x a) (hf : ∀ r, Performs place (f r) (g r)) :
    Performs place (x >>= f) (a >>= g) := by
  intro t
  rw [Action.bind_apply, Action.bind_apply, hx t]
  rcases a t with ⟨result, t'⟩
  cases result with
  | ok r => exact hf r t'
  | error e => rfl

variable {place : Window → σ} {base : Nat} {f : Field} {rest : List Field}
  {content : FieldContent} {contents : List FieldContent} {x y : Action σ Unit}

theorem of_eq {a a' : Action Window Unit} (h : Performs place x a) (ha : ∀ w, a w = a' w) :
    Performs place x a' := by
  intro w
  rw [h w, ha w]

theorem cons (hx : Performs place x (f.store base true content))
    (hy : Performs place y (storeFields base true rest contents)) :
    Performs place (do x; y) (storeFields base true (f :: rest) (content :: contents)) :=
  hx.bind fun _ => hy

theorem last (hx : Performs place x (f.store base true content)) :
    Performs place x (storeFields base true [f] [content]) := by
  apply hx.of_eq
  intro w
  have hlast : storeFields base true [f] [content] = f.store base true content >>= pure := rfl
  rw [hlast, bind_pure]

theorem pass (f : Field) (hy : Performs place y (storeFields base true rest contents)) :
    Performs place y (storeFields base true (f :: rest) (.none :: contents)) := by
  apply hy.of_eq
  intro w
  rw [storeFields, Action.bind_of_ok (Field.store_none f w)]

end Action.Performs

def Message.withWindow (m : Message) (w : Window) : Message :=
  { m with window := w }

theorem Message.performs_onField (m : Message) {f : Field} {content : FieldContent}
    {action : Binding → Action Window Unit}
    (h : ∀ w : Window, action (f.bindAt m.offset true w.version) w =
      f.store m.offset true content w) :
    Action.Performs m.withWindow (Message.onField f action) (f.store m.offset true content) := by
  intro w
  have hfield : Message.onField f action (m.withWindow w) =
      ((action (f.bindAt m.offset true w.version) w).1,
        m.withWindow (action (f.bindAt m.offset true w.version) w).2) := rfl
  rw [hfield, h w]

theorem Message.performs_iterate {α : Type} (m : Message) (group : GroupView)
    (steps : Action Iteration α) :
    Action.Performs m.withWindow (Message.iterate group steps) (Iteration.run group steps) :=
  fun _ => rfl

theorem Iteration.performs_onField {g : GroupView} {base : Nat} (hg : g.current = some base)
    {f : Field} {content : FieldContent} {action : Binding → Action Window Unit}
    (h : ∀ w : Window, action (f.bindAt base true w.version) w = f.store base true content w) :
    Action.Performs (Iteration.mk g) (Iteration.onField f action) (f.store base true content) := by
  intro w
  have hbind : Iteration.bind ⟨g, w⟩ f = .ok (f.bindAt base true w.version) := by
    rw [Iteration.bind, GroupView.element, hg]
    rfl
  simp only [Iteration.onField, Action.bind_apply, Action.get_apply, Action.lift_apply, hbind,
    Iteration.onWindow, Action.onPart_apply, h w]

theorem Iteration.run_carried (view : GroupView) (x y : Action Iteration Unit) (w : Window) :
    (run view (do x; return (← get).group) >>= fun g => run g y) w = run view (do x; y) w := by
  rw [Action.bind_apply]
  simp only [run, Action.bind_apply]
  rcases x ⟨view, w⟩ with ⟨e | _, it⟩ <;> rfl

namespace Field

variable {f : Field} {t : TypeDef} {α : Type} [Element α] {base : Nat}

theorem Numbers.setScalar_eq_store (hf : f.Numbers t α) (value : α) (w : Window) :
    (f.bindAt base true w.version).setScalar value w =
      f.store base true (.value (.ofElement value)) w := by
  have := hf.element
  rw [Field.store_type hf.kind]
  exact congrFun (Binding.setScalar_eq_setValue hf.kind hf.single hf.whole value) w

theorem Numbers.setScalar?_eq_store (hf : f.Numbers t α) (hp : f.presence = .optional)
    (value? : Option α) (w : Window) :
    (f.bindAt base true w.version).setScalar? value? w =
      f.store base true (.value (.ofElement (value?.getD (Element.ofScalar t.null)))) w := by
  rw [Field.store_type hf.kind, hf.setScalar?_eq_setValue hp]

theorem setBits_eq_store {s : SetDef} (hk : f.kind = .set s) (hp : f.presence ≠ .constant)
    (set : BitSet) (w : Window) :
    (f.bindAt base true w.version).setBits set w =
      f.store base true (.bits (.ofBits set.bits s.encoding)) w := by
  have hcut : BitSet.ofBits (BitSet.ofBits set.bits s.encoding).bits s.encoding =
      BitSet.ofBits set.bits s.encoding := BitSet.ofBits_bits (.ofBits set.bits s.encoding)
  have hs : (f.bindAt base true w.version).constant? = .ok none := Binding.constant?_of_stored hp
  have hd : (f.bindAt base true w.version).setDef = .ok s := Binding.setDef_eq hk
  rw [Field.store_set hk]
  simp only [Binding.setBits, Action.bind_apply, Action.lift_apply, hs, hd, hcut]

end Field

namespace Market

def EmptyBook.Content.stored (content : EmptyBook.Content) : List FieldContent :=
  [.value (.ofElement content.securityId),
    .bits (.ofBits content.matchEventIndicator.set.bits .uint8),
    .value (.ofElement (content.tradeDate.getD 65535)),
    .value (.ofElement (content.rptSeq.getD 0))]

def Entries.Content.stored (content : Entries.Content) : List FieldContent :=
  [.members [.value (.ofElement (content.mantissa.getD Int64.minValue)), .none],
    .value (.ofElement content.mdEntrySize),
    .value (.ofElement (content.orderId.getD 18446744073709551615)),
    .raw content.mdEntryType.raw,
    .value (.ofElement (content.enteringFirm.getD 4294967295)),
    .value (.ofElement (content.mdEntryPositionNo.getD 4294967295))]

namespace Snapshot.Content

def fields (content : Snapshot.Content) (symbol : Bytes) : List FieldContent :=
  [.value (.ofElement content.securityId),
    .value (.ofElement (content.lastRptSeq.getD 0)),
    .value (.text symbol),
    .value (.array ⟨.int32, elementBytes [content.lowLimit, content.highLimit]⟩),
    .none,
    .elements (content.entries.map Entries.Content.stored),
    .payload (utf8 content.memo)]

def stored (content : Snapshot.Content) : List FieldContent :=
  content.fields (utf8 content.symbol)

def seen (content : Snapshot.Content) : List FieldContent :=
  content.fields (utf8 content.symbol).untilZero

end Snapshot.Content

theorem EmptyBook.performs_write (content : EmptyBook.Content) (m : Message) :
    Action.Performs m.withWindow (EmptyBook.write content)
      (storeFields m.offset true definition.fields content.stored) := by
  apply Action.Performs.cons (m.performs_onField (Fields.securityId_numbers.setScalar_eq_store _))
  apply Action.Performs.cons (m.performs_onField
    (Field.setBits_eq_store (s := Market.matchEventIndicator) rfl (by decide) _))
  apply Action.Performs.cons
    (m.performs_onField (Fields.tradeDate_numbers.setScalar?_eq_store rfl _))
  exact .last (m.performs_onField (Fields.rptSeq_numbers.setScalar?_eq_store rfl _))

namespace Entries

variable {g : GroupView} {base : Nat} (hg : g.current = some base)
include hg

theorem performs_setMantissa (value? : Option Int64) :
    Action.Performs (Iteration.mk g) (setMantissa value?) (Fields.mdEntryPx.store base true
      (.members [.value (.ofElement (value?.getD Int64.minValue)), .none])) := by
  intro w
  have hv : Fields.mdEntryPx.inVersion w.version = true := decide_eq_true UInt16.zero_le
  have hprice : mdEntryPx ⟨g, w⟩ =
      .ok ⟨Fields.mdEntryPx.bindAt base true w.version, Composites.priceOptional⟩ := by
    rw [mdEntryPx, Iteration.bind, GroupView.element, hg]
    rfl
  have hset : Price.setMantissa
      ⟨Fields.mdEntryPx.bindAt base true w.version, Composites.priceOptional⟩ value? w =
        Composites.mantissa.store base true
          (.value (.ofElement (value?.getD Int64.minValue))) w := by
    have hbind : Price.setMantissa
        ⟨Fields.mdEntryPx.bindAt base true w.version, Composites.priceOptional⟩ value? w =
          (Composites.mantissa.bindAt (wordOf base) (Fields.mdEntryPx.inVersion w.version)
            w.version).setScalar? value? w := rfl
    rw [hbind, Field.bindAt_wordOf, hv]
    exact Composites.mantissa_numbers.setScalar?_eq_store rfl value? w
  have hstore : Fields.mdEntryPx.store base true
      (.members [.value (.ofElement (value?.getD Int64.minValue)), .none]) w =
        Composites.mantissa.store base true
          (.value (.ofElement (value?.getD Int64.minValue))) w := by
    rw [Field.store_composite (c := Composites.priceOptional) rfl, hv]
    change storeFields (wordOf base) true [Composites.mantissa, Composites.exponent] _ w = _
    rw [storeFields, Action.bind_apply, Field.store_type Composites.mantissa_numbers.kind,
      Field.bindAt_wordOf, ← Field.store_type Composites.mantissa_numbers.kind]
    -- The exponent is a constant, so that storing the members is storing the mantissa.
    rcases Composites.mantissa.store base true _ w with ⟨e | _, w'⟩ <;> rfl
  simp only [setMantissa, Action.bind_apply, Action.get_apply, Action.lift_apply, hprice,
    Iteration.onWindow, Action.onPart_apply, hset, hstore]

theorem performs_write (content : Content) :
    Action.Performs (Iteration.mk g) (write content)
      (storeFields base true group.fields content.stored) := by
  apply Action.Performs.cons (performs_setMantissa hg content.mantissa)
  apply Action.Performs.cons
    (Iteration.performs_onField hg (Fields.mdEntrySize_numbers.setScalar_eq_store _))
  apply Action.Performs.cons
    (Iteration.performs_onField hg (Fields.orderId_numbers.setScalar?_eq_store rfl _))
  apply Action.Performs.cons (Iteration.performs_onField hg fun _ => rfl)
  apply Action.Performs.cons
    (Iteration.performs_onField hg (Fields.enteringFirm_numbers.setScalar?_eq_store rfl _))
  exact .last
    (Iteration.performs_onField hg (Fields.mdEntryPositionNo_numbers.setScalar?_eq_store rfl _))

end Entries

theorem Entries.writeAll_eq (contents : List Entries.Content) (it : Iteration)
    (hg : it.group.definition = group) :
    writeAll contents it =
      Iteration.storeElements (fun base => storeFields base true group.fields)
        (contents.map Content.stored) it := by
  induction contents generalizing it with
  | nil => rfl
  | cons content rest ih =>
    rw [writeAll, List.map_cons, Iteration.storeElements, Action.bind_apply, Action.bind_apply,
      Action.discard_apply]
    obtain ⟨g, w⟩ := it
    cases hnext : Iteration.next ⟨g, w⟩ with
    | mk result it' =>
      cases result with
      | error e => rfl
      | ok base =>
        obtain ⟨-, rfl⟩ := Iteration.next_eq_ok hnext
        have hwrite := performs_write (g := g.entered base) rfl content (w.moved g.blockLength)
        change (write content >>= fun _ => writeAll rest) _ =
          (Iteration.onWindow (storeFields base true group.fields content.stored) >>= fun _ =>
            Iteration.storeElements (fun base => storeFields base true group.fields)
              (rest.map Content.stored)) _
        rw [Action.bind_apply, Action.bind_apply, hwrite, Iteration.onWindow, Action.onPart_apply]
        rcases storeFields base true group.fields content.stored (w.moved g.blockLength)
          with ⟨e | _, w'⟩
        · rfl
        · exact ih ⟨g.entered base, w'⟩ hg

namespace Snapshot

variable (m : Message)

theorem performs_setSymbol (value : String) :
    Action.Performs m.withWindow (setSymbol value)
      (Fields.symbol.store m.offset true (.value (.text (utf8 value)))) := by
  apply m.performs_onField
  intro w
  rw [Field.store_type (t := Types.symbol) rfl]
  exact congrFun (Binding.setText_eq_setValue (t := Types.symbol) rfl rfl _) w

theorem performs_setPriceBand (low high : Int32) :
    Action.Performs m.withWindow (setPriceBand low high)
      (Fields.priceBand.store m.offset true
        (.value (.array ⟨.int32, elementBytes [low, high]⟩))) := by
  have : ElementOf Int32 Types.priceBand.primitive :=
    (inferInstance : ElementOf Int32 .int32)
  apply m.performs_onField
  intro w
  rw [Field.store_type (t := Types.priceBand) rfl]
  have hstored : Fields.priceBand.presence ≠ .constant := by decide
  exact congrFun (Binding.setArray_eq_setValue (t := Types.priceBand) rfl hstored _) w

theorem performs_entries (contents : List Entries.Content) :
    Action.Performs m.withWindow
      (noMdEntriesCount contents.length >>= fun entries =>
        Message.iterate entries (Entries.writeAll contents))
      (Fields.noMdEntries.store m.offset true
        (.elements (contents.map Entries.Content.stored))) := by
  have hcount : Action.Performs m.withWindow (noMdEntriesCount contents.length) (fun w => (do
      let view ← GroupView.bind Fields.noMdEntries Entries.group
        (Fields.noMdEntries.bindAt m.offset true w.version).visible
      Iteration.run view do
        Iteration.resetCount contents.length
        return (← get).group : Action Window GroupView) w) := by
    intro w
    rw [noMdEntriesCount_eq]
    rfl
  apply (hcount.bind fun entries => m.performs_iterate entries _).of_eq
  intro w
  set visible := (Fields.noMdEntries.bindAt m.offset true w.version).visible
  have hstore : Fields.noMdEntries.store m.offset true
      (.elements (contents.map Entries.Content.stored)) w = (do
        let view ← GroupView.bind Fields.noMdEntries Entries.group visible
        Iteration.run view do
          Iteration.resetCount (contents.map Entries.Content.stored).length
          Iteration.storeElements (fun base => storeFields base true Entries.group.fields)
            (contents.map Entries.Content.stored) : Action Window Unit) w := rfl
  rw [hstore, Action.bind_apply, Action.bind_apply, Action.bind_apply, List.length_map]
  cases hbind : GroupView.bind Fields.noMdEntries Entries.group visible w with
  | mk result v =>
    cases result with
    | error e => rfl
    | ok view =>
      -- The accessor leaves the group between counting and writing, the store does both in one run.
      have hcarried := Iteration.run_carried view
        (Iteration.resetCount contents.length) (Entries.writeAll contents) v
      rw [Action.bind_apply] at hcarried
      refine hcarried.trans ?_
      simp only [Iteration.run, Action.bind_apply]
      cases hreset : Iteration.resetCount contents.length ⟨view, v⟩ with
      | mk result it =>
        cases result with
        | error e => rfl
        | ok _ =>
          have hdefinition : it.group.definition = Entries.group := by
            have hview := GroupView.definition_of_bind hbind
            rwa [GroupView.group_of_resetCount hreset]
          dsimp only
          rw [Entries.writeAll_eq contents it hdefinition]

theorem performs_setMemo (value : String) :
    Action.Performs m.withWindow (setMemo value)
      (Fields.memo.store m.offset true (.payload (utf8 value))) :=
  m.performs_onField fun _ => rfl

theorem performs_write (content : Content) :
    Action.Performs m.withWindow (write content)
      (storeFields m.offset true definition.fields content.stored) := by
  apply Action.Performs.cons (m.performs_onField (Fields.securityId_numbers.setScalar_eq_store _))
  apply Action.Performs.cons
    (m.performs_onField (Fields.lastRptSeq_numbers.setScalar?_eq_store rfl _))
  apply Action.Performs.cons (performs_setSymbol m _)
  apply Action.Performs.cons (performs_setPriceBand m _ _)
  apply Action.Performs.pass
  rw [← bind_assoc]
  exact .cons (performs_entries m content.entries) (.last (performs_setMemo m _))

end Snapshot

end Market

end SimpleBinary
