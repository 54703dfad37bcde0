import SimpleBinary.Proofs.CheckedReads
import SimpleBinary.Proofs.Frame
import SimpleBinary.Proofs.Tables
import SimpleBinary.Market.Schema

namespace SimpleBinary

namespace Word

variable {w : Window}

section

variable {f : Field} (base : Nat) (enclosed : Bool)

theorem walk_type {t : TypeDef} (hk : f.kind = .type t) :
    walk base enclosed f = do
      let b ← bindAt f base enclosed
      return .type f.name (← (present b).run) (← (value b).run) := by
  obtain ⟨name, id, offset, kind, presence, constant, since⟩ := f
  cases hk
  rfl

theorem walk_enum {e : EnumDef} (hk : f.kind = .enum e) :
    walk base enclosed f = do
      let b ← bindAt f base enclosed
      return .enum f.name (← (present b).run) (← (enumRaw b).run) (← (enumName? b).run) := by
  obtain ⟨name, id, offset, kind, presence, constant, since⟩ := f
  cases hk
  rfl

theorem walk_set {s : SetDef} (hk : f.kind = .set s) :
    walk base enclosed f = do
      let b ← bindAt f base enclosed
      return .set f.name (← (present b).run) (← (bits b).run) (← (choices b).run) := by
  obtain ⟨name, id, offset, kind, presence, constant, since⟩ := f
  cases hk
  rfl

theorem walk_composite {c : CompositeDef} (hk : f.kind = .composite c) :
    walk base enclosed f = do
      let b ← bindAt f base enclosed
      return .composite f.name (← (present b).run) (← walkFields b.offset b.visible c.fields) := by
  obtain ⟨name, id, offset, kind, presence, constant, since⟩ := f
  cases hk
  rfl

theorem walk_group {g : GroupDef} (hk : f.kind = .group g) :
    walk base enclosed f = do
      let b ← bindAt f base enclosed
      match ← (bindGroup f g b.visible).run with
      | .error reason => return .unreachable reason
      | .ok view =>
        let readings ← elements (fun base => walkFields base true g.fields) view.count view
        return .group f.name view.count view.blockLength readings := by
  obtain ⟨name, id, offset, kind, presence, constant, since⟩ := f
  cases hk
  rfl

theorem walk_data {d : DataDef} (hk : f.kind = .data d) :
    walk base enclosed f = do
      let b ← bindAt f base enclosed
      return .data f.name (← (length ⟨f, d, b.visible⟩).run)
        (← (dataValue ⟨f, d, b.visible⟩).run) := by
  obtain ⟨name, id, offset, kind, presence, constant, since⟩ := f
  cases hk
  rfl

end

def AgreesWalk (f : Field) : Prop :=
  ∀ (base : Nat) (enclosed : Bool) (w : Window), w.Sound → f.ConstantsSuit →
    base + f.span ≤ Window.maxPosition → w.limit + f.span ≤ Window.maxPosition →
    Agrees Reading.Safe (walk base enclosed f) (f.walk base enclosed) w

def AgreesWalkFields (fields : List Field) : Prop :=
  ∀ (base : Nat) (enclosed : Bool) (w : Window), w.Sound → ConstantsSuitFields fields →
    base + spanFields fields ≤ Window.maxPosition →
    w.limit + spanFields fields ≤ Window.maxPosition →
    Agrees SafeReadings (walkFields base enclosed fields)
      (SimpleBinary.walkFields base enclosed fields) w

theorem agreesWalk_type (f : Field) (t : TypeDef) (hk : f.kind = .type t) : AgreesWalk f := by
  intro base enclosed w hw hc hbase hlimit
  have hmax : w.limit ≤ Window.maxPosition := by omega
  have hlength : t.extent ≤ Window.maxPosition := by
    rw [Field.span_type hk] at hbase
    omega
  set b := f.bindAt base enclosed w.version with hb
  have hpresent : Reads (present b) (b.present w) w := reads_present hw hmax rfl hbase
  have hvalue : Reads (value b) (b.value w) w := reads_value hw hmax hk (hc.type hk) hlength
  have hrun : (present b).run w = _ := hpresent.same
  have hrun' : (value b).run w = _ := hvalue.same
  refine ⟨?_, ?_, ?_⟩
  · rw [walk_type base enclosed hk, state_bind_of_ok (bindAt_eq hbase enclosed w), ← hb,
      state_bind_of_ok hrun, state_bind_of_ok hrun', Field.walk_type hk]
    rfl
  · rw [Field.walk_type hk]
    exact .type hpresent.short hvalue.short
  · rw [Field.walk_type hk]
    exact .rfl hw

theorem agreesWalk_enum (f : Field) (e : EnumDef) (hk : f.kind = .enum e) : AgreesWalk f := by
  intro base enclosed w hw hc hbase hlimit
  have hmax : w.limit ≤ Window.maxPosition := by omega
  set b := f.bindAt base enclosed w.version with hb
  have hpresent : Reads (present b) (b.present w) w := reads_present hw hmax rfl hbase
  have hraw : Reads (enumRaw b) (b.enumRaw w) w := reads_enumRaw hw hmax hk (hc.enum hk)
  have hsymbol : Reads (enumName? b) (b.enumName? w) w := reads_enumName? hw hmax hk (hc.enum hk)
  have hrun : (present b).run w = _ := hpresent.same
  have hrun' : (enumRaw b).run w = _ := hraw.same
  have hrun'' : (enumName? b).run w = _ := hsymbol.same
  refine ⟨?_, ?_, ?_⟩
  · rw [walk_enum base enclosed hk, state_bind_of_ok (bindAt_eq hbase enclosed w), ← hb,
      state_bind_of_ok hrun, state_bind_of_ok hrun', state_bind_of_ok hrun'', Field.walk_enum hk]
    rfl
  · rw [Field.walk_enum hk]
    exact .enum hpresent.short hraw.short hsymbol.short
  · rw [Field.walk_enum hk]
    exact .rfl hw

theorem agreesWalk_set (f : Field) (s : SetDef) (hk : f.kind = .set s) : AgreesWalk f := by
  intro base enclosed w hw hc hbase hlimit
  have hmax : w.limit ≤ Window.maxPosition := by omega
  set b := f.bindAt base enclosed w.version with hb
  have hpresent : Reads (present b) (b.present w) w := reads_present hw hmax rfl hbase
  have hbits : Reads (bits b) (b.bits w) w := reads_bits hw hmax hk (hc.set hk)
  have hchoices : Reads (choices b) (b.choices w) w := reads_choices hw hmax hk (hc.set hk)
  have hrun : (present b).run w = _ := hpresent.same
  have hrun' : (bits b).run w = _ := hbits.same
  have hrun'' : (choices b).run w = _ := hchoices.same
  refine ⟨?_, ?_, ?_⟩
  · rw [walk_set base enclosed hk, state_bind_of_ok (bindAt_eq hbase enclosed w), ← hb,
      state_bind_of_ok hrun, state_bind_of_ok hrun', state_bind_of_ok hrun'', Field.walk_set hk]
    rfl
  · rw [Field.walk_set hk]
    exact .set hpresent.short hbits.short hchoices.short
  · rw [Field.walk_set hk]
    exact .rfl hw

theorem agreesWalk_composite (f : Field) (c : CompositeDef) (hk : f.kind = .composite c)
    (ih : AgreesWalkFields c.fields) : AgreesWalk f := by
  intro base enclosed w hw hc hbase hlimit
  have hmax : w.limit ≤ Window.maxPosition := by omega
  have hspan := Field.span_composite hk
  set b := f.bindAt base enclosed w.version with hb
  have hpresent : Reads (present b) (b.present w) w := reads_present hw hmax rfl hbase
  have hmembers : Agrees SafeReadings (walkFields b.offset b.visible c.fields)
      (SimpleBinary.walkFields b.offset b.visible c.fields) w := by
    apply ih b.offset b.visible w hw (hc.composite hk)
    · have hplace : b.offset ≤ base + f.offset := wordOf_le _
      omega
    · omega
  have hrun : (present b).run w = _ := hpresent.same
  refine ⟨?_, ?_, ?_⟩
  · rw [walk_composite base enclosed hk, state_bind_of_ok (bindAt_eq hbase enclosed w), ← hb,
      state_bind_of_ok hrun, state_bind_of_ok hmembers.same, Field.walk_composite hk]
    rfl
  · rw [Field.walk_composite hk]
    exact .composite hpresent.short hmembers.safe
  · rw [Field.walk_composite hk]
    exact hmembers.forward

theorem agreesWalk_group (f : Field) (g : GroupDef) (hk : f.kind = .group g)
    (ih : AgreesWalkFields g.fields) : AgreesWalk f := by
  intro base enclosed w hw hc hbase hlimit
  have hspan := Field.span_group hk
  have hmax : w.limit ≤ Window.maxPosition := by omega
  have hgroup := agrees_bindGroup hw hmax f g (enclosed && f.inVersion w.version) (by omega)
  cases hbind : GroupView.bind f g (enclosed && f.inVersion w.version) w with
  | mk result v =>
    have hrun : (bindGroup f g (enclosed && f.inVersion w.version)).run w = _ := hgroup.same
    have hforward := hgroup.forward
    rw [hbind] at hrun hforward
    cases result with
    | error reason =>
      have hshort := hgroup.safe reason (by rw [hbind])
      refine ⟨?_, ?_, ?_⟩
      · rw [walk_group base enclosed hk, state_bind_of_ok (bindAt_eq hbase enclosed w),
          Field.walk_group_of_error hk hbind]
        exact state_bind_of_ok hrun
      · rw [Field.walk_group_of_error hk hbind]
        exact .unreachable hshort
      · rw [Field.walk_group_of_error hk hbind]
        exact hforward
    | ok view =>
      obtain ⟨hindex, hcount, -, -⟩ := GroupView.bind_eq_ok hbind
      -- The fields of the elements are read from places up to the limit, for which the span leaves
      -- room.
      have hread : ∀ base w', w'.Sound → w'.limit = w.limit → base ≤ w.limit →
          Agrees SafeReadings (walkFields base true g.fields)
            (SimpleBinary.walkFields base true g.fields) w' := by
        intro base w' hw' hl hle
        exact ih base true w' hw' (hc.group hk) (by omega) (by omega)
      have helements := agrees_elements hmax hread view.count view v (hforward.sound hw)
        hforward.limit_eq (by omega) hcount
      refine ⟨?_, ?_, ?_⟩
      · rw [walk_group base enclosed hk, state_bind_of_ok (bindAt_eq hbase enclosed w),
          Field.walk_group_of_ok hk hbind]
        exact (state_bind_of_ok hrun).trans (state_bind_of_ok helements.same)
      · rw [Field.walk_group_of_ok hk hbind]
        exact .group (fun element h => (helements.safe element h).1)
          fun readings h => (helements.safe _ h).2 readings rfl
      · rw [Field.walk_group_of_ok hk hbind]
        exact hforward.trans helements.forward

theorem agreesWalk_data (f : Field) (d : DataDef) (hk : f.kind = .data d) : AgreesWalk f := by
  intro base enclosed w hw _ hbase hlimit
  have hspan := Field.span_data hk
  have hmax : w.limit ≤ Window.maxPosition := by omega
  set view := f.dataView d enclosed w.version with hview
  have hfit : w.limit + max view.definition.lengthMember.offset view.headerLength ≤
      Window.maxPosition := by
    simp only [hview, Field.dataView, DataView.headerLength]
    omega
  have hlength : Reads (length view) (view.length w) w := reads_length hw hmax hfit
  have hvalue : AgreesAction (dataValue view) view.value w := agrees_dataValue hw hmax hfit
  have hrun : (length view).run w = _ := hlength.same
  have hrun' : (dataValue view).run w = _ := hvalue.same
  refine ⟨?_, ?_, ?_⟩
  · rw [walk_data base enclosed hk, state_bind_of_ok (bindAt_eq hbase enclosed w),
      Field.walk_data hk]
    exact (state_bind_of_ok hrun).trans (state_bind_of_ok hrun')
  · rw [Field.walk_data hk]
    exact .data hlength.short hvalue.safe
  · rw [Field.walk_data hk]
    exact hvalue.forward

theorem agreesWalk_nil : AgreesWalkFields [] := by
  intro base enclosed w hw _ _ _
  exact .pure hw (List.forall_mem_nil _)

theorem agreesWalk_cons (f : Field) (rest : List Field) (hf : AgreesWalk f)
    (ih : AgreesWalkFields rest) : AgreesWalkFields (f :: rest) := by
  intro base enclosed w hw hc hbase hlimit
  have hspan : spanFields (f :: rest) = max f.span (spanFields rest) := rfl
  apply Agrees.bind (hf base enclosed w hw hc.1 (by omega) (by omega))
  intro reading w' _ hsafe hforward
  have hlimit' := hforward.limit_eq
  apply Agrees.bind (ih base enclosed w' (hforward.sound hw) hc.2 (by omega) (by omega))
  intro readings w'' _ hrest hforward'
  exact .pure (hforward'.sound (hforward.sound hw)) (List.forall_mem_cons.mpr ⟨hsafe, hrest⟩)

theorem agreesWalk : TableInduction AgreesWalk AgreesWalkFields where
  type := agreesWalk_type
  enum := agreesWalk_enum
  set := agreesWalk_set
  composite := agreesWalk_composite
  group := agreesWalk_group
  data := agreesWalk_data
  nil := agreesWalk_nil
  cons := agreesWalk_cons

section

variable {f : Field}

theorem skip_of_fixed (h : ∀ g, f.kind ≠ .group g) (h' : ∀ d, f.kind ≠ .data d) :
    skip f = return := by
  obtain ⟨name, id, offset, kind, presence, constant, since⟩ := f
  cases kind with
  | group g => exact absurd rfl (h g)
  | data d => exact absurd rfl (h' d)
  | _ => rfl

theorem skip_group {g : GroupDef} (hk : f.kind = .group g) :
    skip f = (do
      let view ← bindGroup f g (f.inVersion (← get).version)
      repeatNext (skipFields g.fields) (← difference view.count view.index) view) := by
  obtain ⟨name, id, offset, kind, presence, constant, since⟩ := f
  cases hk
  rfl

theorem skip_data {d : DataDef} (hk : f.kind = .data d) :
    skip f = (do discard <| skipData ⟨f, d, f.inVersion (← get).version⟩) := by
  obtain ⟨name, id, offset, kind, presence, constant, since⟩ := f
  cases hk
  rfl

end

theorem agrees_repeatNext {visitWords : WordAction Window Unit} {visit : Nat → Action Window Unit}
    {limit : Nat} (hmax : limit ≤ Window.maxPosition)
    (hvisit : ∀ base w, w.Sound → w.limit = limit → AgreesAction visitWords (visit base) w)
    (n : Nat) (view : GroupView) (w : Window) (hw : w.Sound) (hl : w.limit = limit)
    (hn : view.index + n ≤ view.count) (hc : view.count ≤ Window.maxPosition) :
    AgreesAction (repeatNext visitWords n view) (Iteration.run view (Iteration.repeatNext visit n))
      w := by
  induction n generalizing view w with
  | zero => exact .ok hw _
  -- The count fits in a word, so the index of the next element does.
  | succ n ih =>
    have hi : view.index < view.count := by omega
    have hmax' : w.limit ≤ Window.maxPosition := by rwa [hl]
    by_cases hle : w.position + view.blockLength ≤ w.limit
    · have hforward : w.Forward (w.moved view.blockLength) := ⟨_, hle, rfl⟩
      have hrest : AgreesAction
          (visitWords >>= fun _ => repeatNext visitWords n (view.entered w.position))
          (visit w.position >>= fun _ =>
            Iteration.run (view.entered w.position) (Iteration.repeatNext visit n))
          (w.moved view.blockLength) := by
        apply AgreesAction.bind (hvisit w.position _ (hw.moved hle) hl)
        intro _ w' _ hforward'
        exact ih (view.entered w.position) w' (hforward'.sound (hw.moved hle))
          (hforward'.limit_eq.trans hl) (by simp only [GroupView.entered]; omega) hc
      have hmodel : Iteration.run view (Iteration.repeatNext visit (n + 1)) w = _ :=
        Iteration.run_repeatNext_of_le hi hle
      refine ⟨?_, ?_, ?_⟩
      · rw [hmodel]
        exact (bind_of_ok (next_of_le hw hmax' hi hc hle)).trans hrest.same
      · rw [hmodel]
        exact hrest.safe
      · rw [hmodel]
        exact hforward.trans hrest.forward
    · have hlt := Nat.lt_of_not_le hle
      have hmodel : Iteration.run view (Iteration.repeatNext visit (n + 1)) w = _ :=
        Iteration.run_repeatNext_of_lt hi hlt
      refine ⟨?_, ?_, ?_⟩
      · rw [hmodel]
        exact bind_of_error (next_of_lt hw hmax' hi hlt)
      · rw [hmodel]
        exact okOrShort_error trivial
      · rw [hmodel]
        exact .rfl hw

def AgreesSkip (f : Field) : Prop :=
  ∀ w : Window, w.Sound → w.limit + f.span ≤ Window.maxPosition → AgreesAction (skip f) f.skip w

def AgreesSkipFields (fields : List Field) : Prop :=
  ∀ w : Window, w.Sound → w.limit + spanFields fields ≤ Window.maxPosition →
    AgreesAction (skipFields fields) (SimpleBinary.skipFields fields) w

theorem agreesSkip_of_fixed {f : Field} (h : ∀ g, f.kind ≠ .group g) (h' : ∀ d, f.kind ≠ .data d) :
    AgreesSkip f := by
  intro w hw _
  rw [skip_of_fixed h h', Field.skip_of_fixed h h']
  exact .ok hw _

theorem agreesSkip_group (f : Field) (g : GroupDef) (hk : f.kind = .group g)
    (ih : AgreesSkipFields g.fields) : AgreesSkip f := by
  intro w hw hlimit
  have hspan := Field.span_group hk
  have hmax : w.limit ≤ Window.maxPosition := by omega
  rw [skip_group hk, Field.skip_group hk]
  apply AgreesAction.get_bind
  apply AgreesAction.bind (agrees_bindGroup hw hmax f g _ (by omega))
  intro view w' hbind hforward
  obtain ⟨hindex, hcount, -, -⟩ := GroupView.bind_eq_ok hbind
  have hdifference : difference view.count view.index = .ok view.remaining := if_pos (by omega)
  have hvisit : ∀ base : Nat, ∀ v : Window, v.Sound → v.limit = w.limit →
      AgreesAction (skipFields g.fields) (SimpleBinary.skipFields g.fields) v :=
    fun _ v hv hl => ih v hv (by omega)
  apply AgreesAction.fault_bind hdifference
  exact agrees_repeatNext hmax hvisit view.remaining view w' (hforward.sound hw) hforward.limit_eq
    (by rw [GroupView.remaining]; omega) hcount

theorem agreesSkip_data (f : Field) (d : DataDef) (hk : f.kind = .data d) : AgreesSkip f := by
  intro w hw hlimit
  have hspan := Field.span_data hk
  have hmax : w.limit ≤ Window.maxPosition := by omega
  rw [skip_data hk, Field.skip_data hk]
  apply AgreesAction.get_bind
  apply AgreesAction.discard hw
  apply agrees_skipData hw hmax
  simp only [DataView.headerLength]
  omega

theorem agreesSkip : TableInduction AgreesSkip AgreesSkipFields := by
  apply TableInduction.of_fixed
  · intro f h h'
    exact agreesSkip_of_fixed h h'
  · exact agreesSkip_group
  · exact agreesSkip_data
  · intro w hw _
    exact .ok hw _
  · intro f rest hf ih w hw hlimit
    have hspan : spanFields (f :: rest) = max f.span (spanFields rest) := rfl
    apply AgreesAction.bind (hf w hw (by omega))
    intro _ w' _ hforward
    have hlimit' := hforward.limit_eq
    exact ih w' (hforward.sound hw) (by omega)

theorem wrap_eq (bytes : Bytes) (offset limit blockLength : Nat) (version : UInt16)
    (definition : MessageDef) :
    wrap bytes offset limit blockLength version definition =
      .ok (Message.wrapForDecode bytes offset limit blockLength version definition) := by
  unfold wrap Message.wrapForDecode
  by_cases hstop : Window.maxPosition < offset + blockLength
  · rw [if_pos hstop, if_pos hstop]
    rfl
  · have hsum : sum offset blockLength = .ok (offset + blockLength) :=
      if_pos (Nat.le_of_not_lt hstop)
    rw [if_neg hstop, if_neg hstop, hsum]
    rfl

end Word

namespace Message

variable {bytes : Bytes} {offset limit blockLength : Nat} {version : UInt16}
  {definition : MessageDef} {m : Message}

theorem okOrShort_wrapForDecode :
    OkOrShort (wrapForDecode bytes offset limit blockLength version definition) := by
  rw [wrapForDecode_eq, Window.open?]
  repeat' split
  · exact okOrShort_error trivial
  · exact okOrShort_error trivial
  · exact okOrShort_error trivial
  · exact okOrShort_ok _

theorem agrees_skip (hm : m.window.position = m.offset + m.blockLength) (hw : m.window.Sound)
    (hspan : m.window.limit + spanFields m.definition.fields ≤ Window.maxPosition) :
    Word.skipMessage m m.window = .ok ((skip m).1, (skip m).2.window) ∧ OkOrShort (skip m).1 ∧
      m.window.Forward (skip m).2.window := by
  have hle := hw.position_le
  have hsum : Word.sum m.offset m.blockLength = .ok m.window.position := by
    rw [Word.sum, if_pos (by omega), hm]
  have hagrees := Word.agreesSkip.table m.definition.fields m.window hw hspan
  have hstart : Word.skipMessage m m.window =
      (Word.skipFields m.definition.fields >>= fun _ => do
        Word.difference (← get).position m.offset) m.window := by
    simp only [Word.skipMessage, hsum]
    change (if m.window.position ≤ m.window.limit then _ else _ : WordAction Window Nat)
      m.window = _
    rw [if_pos hle]
    rfl
  rw [hstart, skip_of_wrapped hm hle]
  cases hskip : skipFields m.definition.fields m.window with
  | mk result w =>
    have hsame := hagrees.same
    have hforward := hagrees.forward
    rw [hskip] at hsame hforward
    cases result with
    | ok a =>
      have hposition : m.window.position ≤ w.position := hforward.position_le
      have hdifference : Word.difference w.position m.offset = .ok (w.position - m.offset) :=
        if_pos (by omega)
      refine ⟨?_, okOrShort_ok _, hforward⟩
      rw [Word.bind_of_ok hsame]
      change (liftM (Word.difference w.position m.offset) : WordAction Window Nat) w = _
      rw [hdifference]
      rfl
    | error e =>
      exact ⟨Word.bind_of_error hsame, okOrShort_error (hagrees.safe e (by rw [hskip])), hforward⟩

/-- Whatever bytes there are, and whatever lengths and version are announced, wrapping a message,
skipping it and reading every field of it end with a result or for want of bytes. With words for
lengths, counts and places they do the same without a fault, and the position stays inside the
limit. -/
theorem read_any_bytes (definition : MessageDef)
    (hconstants : ConstantsSuitFields definition.fields) (bytes : Bytes)
    (hspan : bytes.length + spanFields definition.fields < 2 ^ 64)
    (offset limit blockLength : Nat) (version : UInt16) :
    OkOrShort (wrapForDecode bytes offset limit blockLength version definition) ∧
    Word.wrap bytes offset limit blockLength version definition =
      .ok (wrapForDecode bytes offset limit blockLength version definition) ∧
    ∀ m, wrapForDecode bytes offset limit blockLength version definition = .ok m →
      m.window.Sound ∧
      (OkOrShort (skip m).1 ∧
        Word.skipMessage m m.window = .ok ((skip m).1, (skip m).2.window) ∧
        m.window.Forward (skip m).2.window) ∧
      (SafeReadings (m.body.walk m.window).1 ∧
        Word.walkMessage m m.window = .ok (m.body.walk m.window) ∧
        m.window.Forward (m.body.walk m.window).2) := by
  refine ⟨okOrShort_wrapForDecode, Word.wrap_eq _ _ _ _ _ _, ?_⟩
  intro m hm
  obtain ⟨hstop, hlimit, hle, rfl⟩ := wrapForDecode_eq_ok hm
  have hmax : Window.maxPosition = 2 ^ 64 - 1 := rfl
  have hsound : Window.Sound ⟨bytes, limit, offset + blockLength, version, hle⟩ := ⟨hstop, hlimit⟩
  obtain ⟨hsame, hshort, hforward⟩ := agrees_skip
    (m := ⟨⟨bytes, limit, offset + blockLength, version, hle⟩, definition, offset, none,
      blockLength⟩)
    rfl hsound (by simp only; omega)
  have hwalk := Word.agreesWalk.table definition.fields offset true
    ⟨bytes, limit, offset + blockLength, version, hle⟩ hsound hconstants (by omega)
    (by simp only; omega)
  exact ⟨hsound, ⟨hshort, hsame, hforward⟩, hwalk.safe, hwalk.same, hwalk.forward⟩

theorem read_any_bytes_snapshot :
    ConstantsSuitFields Market.Snapshot.definition.fields ∧
    (List.replicate 40 255 : Bytes).length + spanFields Market.Snapshot.definition.fields < 2 ^ 64 ∧
    ∃ m, wrapForDecode (List.replicate 40 255) 2 38 29 2 Market.Snapshot.definition = .ok m ∧
      OkOrShort (skip m).1 ∧ SafeReadings (m.body.walk m.window).1 := by
  have hconstants : ConstantsSuitFields Market.Snapshot.definition.fields := by
    refine ⟨?_, ?_, ?_, ?_, ?_, ?_, ?_, trivial⟩
    · exact fun h => by cases h
    · exact fun h => by cases h
    · exact fun h => by cases h
    · exact fun h => by cases h
    · exact fun _ => ⟨_, rfl⟩
    · refine ⟨⟨?_, ?_, trivial⟩, ?_, ?_, ?_, ?_, ?_, trivial⟩
      · exact fun h => by cases h
      · exact fun _ => ⟨_, rfl⟩
      all_goals exact fun h => by cases h
    · exact fun h => by cases h
  have hspan : (List.replicate 40 255 : Bytes).length +
      spanFields Market.Snapshot.definition.fields < 2 ^ 64 := by decide
  obtain ⟨_, _, hread⟩ := read_any_bytes Market.Snapshot.definition hconstants
    (List.replicate 40 255) hspan 2 38 29 2
  obtain ⟨_, ⟨hskip, _⟩, hwalk, _⟩ := hread _ rfl
  exact ⟨hconstants, hspan, _, rfl, hskip, hwalk⟩

end Message

end SimpleBinary
