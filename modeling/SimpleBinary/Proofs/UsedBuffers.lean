import SimpleBinary.Market.Schema
import SimpleBinary.Proofs.Frame
import SimpleBinary.Proofs.JsonImport
import SimpleBinary.Proofs.Overlays

namespace SimpleBinary

open JsonValues

theorem ImportAction.ofAction_of_error {σ α : Type} {action : Action σ α} {s t : σ} {e : Error}
    (h : action s = (.error e, t)) : ofAction action s = (.error (.codec e), t) := by
  rw [ofAction_apply, h]
  rfl

structure ImportAlike {σ α : Type} (R : σ → σ → Prop) (x y : ImportAction σ α) (s s' : σ) :
    Prop where
  result : (y s').1 = (x s).1
  related : R (x s).2 (y s').2

namespace ImportAlike

open ImportAction

variable {σ τ α β : Type} {R : σ → σ → Prop} {s s' : σ}

theorem pure (h : R s s') (a : α) : ImportAlike R (Pure.pure a) (Pure.pure a) s s' :=
  ⟨rfl, h⟩

theorem throw (h : R s s') (e : ImportError) :
    ImportAlike R (MonadExcept.throw e : ImportAction σ α) (MonadExcept.throw e) s s' :=
  ⟨rfl, h⟩

theorem lift (h : R s s') (x : Except ImportError α) :
    ImportAlike R (liftM x : ImportAction σ α) (liftM x) s s' :=
  ⟨rfl, h⟩

theorem ofAction {x y : Action σ α} (h : Alike R x y s s') :
    ImportAlike R (ImportAction.ofAction x) (ImportAction.ofAction y) s s' := by
  constructor
  · rw [ofAction_apply, ofAction_apply, h.result]
  · rw [ofAction_apply, ofAction_apply]
    exact h.related

theorem bind_ok {x y : ImportAction σ α} {f g : α → ImportAction σ β} {a a' : α} {t t' : σ}
    (hx : x s = (.ok a, t)) (hy : y s' = (.ok a', t')) (h : ImportAlike R (f a) (g a') t t') :
    ImportAlike R (x >>= f) (y >>= g) s s' := by
  constructor
  · rw [bind_apply, bind_apply, hx, hy]
    exact h.result
  · rw [bind_apply, bind_apply, hx, hy]
    exact h.related

theorem bind_error {x y : ImportAction σ α} {f g : α → ImportAction σ β} {e : ImportError}
    {t t' : σ} (hx : x s = (.error e, t)) (hy : y s' = (.error e, t')) (h : R t t') :
    ImportAlike R (x >>= f) (y >>= g) s s' := by
  constructor
  · rw [bind_apply, bind_apply, hx, hy]
  · rw [bind_apply, bind_apply, hx, hy]
    exact h

theorem bind {x y : ImportAction σ α} {f g : α → ImportAction σ β} (h : ImportAlike R x y s s')
    (hf : ∀ a t t', R t t' → ImportAlike R (f a) (g a) t t') :
    ImportAlike R (x >>= f) (y >>= g) s s' := by
  obtain ⟨hresult, hrelated⟩ := h
  rcases hx : x s with ⟨result, t⟩
  rcases hy : y s' with ⟨result', t'⟩
  rw [hx, hy] at hresult hrelated
  cases hresult
  cases result with
  | ok a => exact bind_ok hx hy (hf a t t' hrelated)
  | error e => exact bind_error hx hy hrelated

theorem mono {Q : σ → σ → Prop} {x y : ImportAction σ α} (h : ImportAlike R x y s s')
    (hq : ∀ t t', R t t' → Q t t') : ImportAlike Q x y s s' :=
  ⟨h.result, hq _ _ h.related⟩

theorem onPart {Q : τ → τ → Prop} {get get' : σ → τ} {set set' : τ → σ → σ}
    {x y : ImportAction τ α} (h : ImportAlike Q x y (get s) (get' s'))
    (hset : ∀ t t', Q t t' → R (set t s) (set' t' s')) :
    ImportAlike R (ImportAction.onPart get set x) (ImportAction.onPart get' set' y) s s' :=
  ⟨h.result, hset _ _ h.related⟩

theorem congr {x x' y y' : ImportAction σ α} (h : ImportAlike R x y s s') (hx : x' s = x s)
    (hy : y' s' = y s') : ImportAlike R x' y' s s' := by
  constructor
  · rw [hx, hy]
    exact h.result
  · rw [hx, hy]
    exact h.related

theorem mapM (items : List α) (x : α → Except ImportError β) :
    ∀ {s s' : σ}, R s s' →
      ImportAlike R (items.mapM fun item => (liftM (x item) : ImportAction σ β))
        (items.mapM fun item => liftM (x item)) s s' := by
  induction items with
  | nil => exact fun h => .pure h _
  | cons item rest ih =>
    intro s s' h
    rw [List.mapM_cons]
    apply bind (.lift h _)
    intro first t t' ht
    apply bind (ih ht)
    intro others u u' hu
    exact .pure hu _

end ImportAlike

section

variable {J : Type} [JsonValues J] {a b : Bytes} {w w' : Window}

open ImportAction

namespace Binding

theorem importType_overlaid (h : Window.Overlaid a b w w') (f : Binding) (json : J) :
    ImportAlike (Window.Overlaid a b) (f.importType json) (f.importType json) w w' := by
  unfold importType
  cases f.typeDef with
  | error e => exact .throw h _
  | ok t =>
    cases view json with
    | null => exact .ofAction (alike_reset_overlaid h f)
    | string characters => exact .ofAction (alike_setValue_overlaid h f _)
    | array items =>
      apply ImportAlike.bind (.mapM items _ h)
      intro bytes t t' ht
      exact .ofAction (alike_setValue_overlaid ht f _)
    | other =>
      apply ImportAlike.bind (.lift h _)
      intro s t t' ht
      exact .ofAction (alike_setValue_overlaid ht f _)

theorem importEnum_overlaid (h : Window.Overlaid a b w w') (f : Binding) (json : J) :
    ImportAlike (Window.Overlaid a b) (f.importEnum json) (f.importEnum json) w w' := by
  unfold importEnum
  cases view json with
  | null => exact .ofAction (alike_reset_overlaid h f)
  | string name => exact .ofAction (alike_setEnumName_overlaid h f name)
  | _ =>
    apply ImportAlike.bind (.lift h _)
    intro s t t' ht
    exact .ofAction (alike_setEnumRaw_overlaid ht f _)

theorem importSet_overlaid (h : Window.Overlaid a b w w') (f : Binding) (json : J) :
    ImportAlike (Window.Overlaid a b) (f.importSet json) (f.importSet json) w w' := by
  apply ImportAlike.ofAction
  apply Alike.lift_bind h rfl
  intro s _
  apply Alike.lift_bind h rfl
  intro set _
  exact alike_setBits_overlaid h f set

end Binding

def Field.ImportsOverlaid (J : Type) [JsonValues J] (a b : Bytes) (f : Field) : Prop :=
  ∀ (base : Nat) (enclosed : Bool) (json : J) (w w' : Window), Window.Overlaid a b w w' →
    ImportAlike (Window.Overlaid a b) (f.ofJson base enclosed json)
      (f.ofJson base enclosed json) w w'

def ImportsOverlaidFields (J : Type) [JsonValues J] (a b : Bytes) (fields : List Field) : Prop :=
  ∀ (base : Nat) (enclosed : Bool) (json : J) (w w' : Window), Window.Overlaid a b w w' →
    ImportAlike (Window.Overlaid a b) (fieldsOfJson base enclosed fields json)
      (fieldsOfJson base enclosed fields json) w w'

theorem importItems_overlaid {α : Type} {write : Nat → α → ImportAction Window Unit}
    (hwrite : ∀ base json w w', Window.Overlaid a b w w' →
      ImportAlike (Window.Overlaid a b) (write base json) (write base json) w w')
    (items : List α) :
    ∀ it it', Iteration.Overlaid a b it it' →
      ImportAlike (Iteration.Overlaid a b) (Iteration.importItems write items)
        (Iteration.importItems write items) it it' := by
  induction items with
  | nil => exact fun it it' h => .pure h _
  | cons item rest ih =>
    intro it it' h
    apply ImportAlike.bind (.ofAction (Iteration.alike_next_overlaid h))
    intro base t t' ht
    apply ImportAlike.bind
    · exact ImportAlike.onPart (hwrite base item _ _ ht.window) fun _ _ hu => ⟨ht.group_eq, hu⟩
    intro _ u u' hu
    exact ih u u' hu

namespace Field

theorem importSteps_overlaid {α : Type} {write : Nat → α → ImportAction Window Unit}
    (hwrite : ∀ base json w w', Window.Overlaid a b w w' →
      ImportAlike (Window.Overlaid a b) (write base json) (write base json) w w')
    {it it' : Iteration} (hg : it.group.SameHeader it'.group)
    (h : Iteration.OverlaidWindows a b it it') (items : List α) :
    ImportAlike (Iteration.OverlaidWindows a b)
      (do
        ImportAction.ofAction (Iteration.resetCount items.length)
        Iteration.importItems write items)
      (do
        ImportAction.ofAction (Iteration.resetCount items.length)
        Iteration.importItems write items) it it' := by
  obtain ⟨hresult, hrelated⟩ := Iteration.alike_resetCount_overlaid hg h items.length
  rcases hreset : Iteration.resetCount items.length it with ⟨result, t⟩
  rcases hreset' : Iteration.resetCount items.length it' with ⟨result', t'⟩
  rw [hreset, hreset'] at hresult hrelated
  cases hresult
  cases result with
  | error e => exact .bind_error (ofAction_of_error hreset) (ofAction_of_error hreset') hrelated
  | ok a =>
    have hoverlaid := Iteration.overlaid_of_resetCount hg hreset hreset' hrelated
    have hitems := importItems_overlaid hwrite items t t' hoverlaid
    exact .bind_ok (ofAction_of_ok hreset) (ofAction_of_ok hreset')
      (hitems.mono fun _ _ hu => hu.window)

theorem importsOverlaid_group (f : Field) (g : GroupDef) (hk : f.kind = .group g)
    (ih : ImportsOverlaidFields J a b g.fields) : f.ImportsOverlaid J a b := by
  intro base enclosed json w w' h
  refine ImportAlike.congr ?_ (ofJson_group hk) (by rw [ofJson_group hk, h.version_eq])
  rcases GroupView.bind_overlaid h f g (enclosed && f.inVersion w.version) with
    ⟨e, hbind, hbind'⟩ | ⟨view, view', v, v', hbind, hbind', hheader, hv⟩
  · exact .bind_error (ofAction_of_error hbind) (ofAction_of_error hbind') h
  · have hv : Iteration.OverlaidWindows a b ⟨view, v⟩ ⟨view', v'⟩ := hv
    have hsteps := importSteps_overlaid (fun base json w w' => ih base true json w w') hheader hv
      ((toList? json).getD [])
    exact .bind_ok (ofAction_of_ok hbind) (ofAction_of_ok hbind')
      ⟨hsteps.result, hsteps.related⟩

theorem importsOverlaid :
    TableInduction (ImportsOverlaid J a b) (ImportsOverlaidFields J a b) where
  type f t hk base enclosed json w w' h :=
    (Binding.importType_overlaid h (f.bindAt base enclosed w.version) json).congr (ofJson_type hk)
      (by rw [ofJson_type hk, h.version_eq])
  enum f e hk base enclosed json w w' h :=
    (Binding.importEnum_overlaid h (f.bindAt base enclosed w.version) json).congr (ofJson_enum hk)
      (by rw [ofJson_enum hk, h.version_eq])
  set f s hk base enclosed json w w' h :=
    (Binding.importSet_overlaid h (f.bindAt base enclosed w.version) json).congr (ofJson_set hk)
      (by rw [ofJson_set hk, h.version_eq])
  composite f c hk ih base enclosed json w w' h :=
    (ih (wordOf (base + f.offset)) (enclosed && f.inVersion w.version) json w w' h).congr
      (ofJson_composite hk) (by rw [ofJson_composite hk, h.version_eq])
  group := importsOverlaid_group
  data f d hk base enclosed json w w' h :=
    (ImportAlike.ofAction (DataView.alike_setValue_overlaid h (f.dataView d enclosed w.version)
      (utf8 ((toString? json).getD "")))).congr (ofJson_data hk)
      (by rw [ofJson_data hk, h.version_eq])
  nil base enclosed json w w' h := .pure h _
  cons f rest hf ih base enclosed json w w' h :=
    (hf base enclosed (member json f.name) w w' h).bind fun _ t t' ht =>
      ih base enclosed json t t' ht

end Field

namespace Message

def placed (m : MessageDef) {bytes : Bytes} (hmax : bytes.length ≤ Window.maxPosition) : Message :=
  ⟨⟨bytes, bytes.length, MessageHeader.size + m.blockLength, m.schema.version, hmax⟩, m,
    MessageHeader.size, some 0, m.blockLength⟩

theorem writeFrame_front_of_lt {m : MessageDef} {bytes : Bytes}
    (hmax : bytes.length ≤ Window.maxPosition)
    (h : bytes.length < MessageHeader.size + m.blockLength) :
    writeFrame 0 bytes.length m bytes =
      (.error (.bufferTooShort (min (MessageHeader.size + m.blockLength) Window.maxPosition)
        bytes.length), bytes) := by
  have hopen : Window.open? bytes bytes.length 0 m.schema.version = _ :=
    Window.open?_eq_ok.mpr ⟨Nat.le_refl _, Nat.zero_le _, hmax, rfl⟩
  have hcheck : Window.check ⟨bytes, bytes.length, 0, m.schema.version, hmax⟩ 0
      (MessageHeader.size + m.blockLength) = _ := Window.check_of_lt (by rw [Nat.zero_add]; exact h)
  simp only [writeFrame, Action.bind_apply, Action.get_apply, Action.lift_apply, hopen,
    Action.discard_apply, hcheck, Except.map, Window.tooShort, Nat.zero_add]

theorem writeFrame_front_of_over {m : MessageDef} {bytes : Bytes}
    (h : Window.maxPosition < bytes.length) :
    writeFrame 0 bytes.length m bytes =
      (.error (.bufferTooShort bytes.length Window.maxPosition), bytes) := by
  have hopen := Window.open?_of_over (Nat.le_refl bytes.length) h 0 m.schema.version
  simp only [writeFrame, Action.bind_apply, Action.get_apply, Action.lift_apply, hopen]

theorem writeFrame_overlaid {x y : Bytes} (h : Bytes.Overlaid a b x y) (m : MessageDef) :
    (∃ e, writeFrame 0 x.length m x = (.error e, x) ∧ writeFrame 0 y.length m y = (.error e, y)) ∨
      ∃ (x' y' : Bytes) (hx : x'.length ≤ Window.maxPosition)
        (hy : y'.length ≤ Window.maxPosition),
        writeFrame 0 x.length m x = (.ok (placed m hx), x') ∧
          writeFrame 0 y.length m y = (.ok (placed m hy), y') ∧ Bytes.Overlaid a b x' y' := by
  have hlength := h.length_eq
  by_cases hmax : x.length ≤ Window.maxPosition
  · by_cases hle : MessageHeader.size + m.blockLength ≤ x.length
    · have hheader : 0 + (MessageHeader.ofMessage m).toBytes.length ≤ x.length := by
        rw [MessageHeader.length_toBytes]
        omega
      -- Whether there is room depends on the length only, which the buffers have in common.
      have hframe (z : Bytes) (hz : z.length = x.length) :
          ∃ hmax' : (z.overwrite 0 (MessageHeader.ofMessage m).toBytes).length ≤
              Window.maxPosition, writeFrame 0 z.length m z =
            (.ok (placed m hmax'), z.overwrite 0 (MessageHeader.ofMessage m).toBytes) := by
        have hz' : (z.overwrite 0 (MessageHeader.ofMessage m).toBytes).length = z.length :=
          Bytes.length_overwrite (hz ▸ hheader)
        refine ⟨by omega, ?_⟩
        rw [writeFrame_of_le (Nat.le_refl _) (by omega) (by omega)]
        simp only [placed, hz', Nat.zero_add]
      obtain ⟨hx, hwrite⟩ := hframe x rfl
      obtain ⟨hy, hwrite'⟩ := hframe y hlength
      exact .inr ⟨_, _, hx, hy, hwrite, hwrite', h.overwrite hheader⟩
    · have hlt := Nat.lt_of_not_le hle
      rw [writeFrame_front_of_lt hmax hlt, writeFrame_front_of_lt (hlength ▸ hmax) (hlength ▸ hlt),
        hlength]
      exact .inl ⟨_, rfl, rfl⟩
  · have hover := Nat.lt_of_not_le hmax
    rw [writeFrame_front_of_over hover, writeFrame_front_of_over (hlength ▸ hover), hlength]
    exact .inl ⟨_, rfl, rfl⟩

end Message

def MessageDef.importBody (m : MessageDef) (json : J) (message : Message) :
    ImportAction Bytes Nat :=
  ImportAction.onPart (fun bytes => { message.window with bytes }) (fun w _ => w.bytes) do
    fieldsOfJson message.offset true m.fields (member json "fields")
    return MessageHeader.size + ((← get).position - message.offset)

theorem MessageDef.importJson_of_find {templates : List MessageDef} {json : J} {m : MessageDef}
    (h : templates.find? (·.name == (toString? (member json "template")).getD "") = some m)
    (bytes : Bytes) :
    importJson templates json bytes =
      (ofAction (Message.writeFrame 0 bytes.length m) >>= m.importBody json) bytes := by
  unfold importJson
  dsimp only
  rw [h]
  rfl

theorem importBody_overlaid (m : MessageDef) (json : J) {x y : Bytes}
    (hx : x.length ≤ Window.maxPosition) (hy : y.length ≤ Window.maxPosition)
    (h : Bytes.Overlaid a b x y) :
    ImportAlike (Bytes.Overlaid a b) (m.importBody json (Message.placed m hx))
      (m.importBody json (Message.placed m hy)) x y := by
  have hwindow : Window.Overlaid a b (Message.placed m hx).window (Message.placed m hy).window := {
    bytes := h
    limit_le := Nat.le_refl _
    limit_eq := h.length_eq
    position_eq := rfl
    version_eq := rfl }
  apply ImportAlike.onPart (Q := Window.Overlaid a b) _ fun _ _ ht => ht.bytes
  apply ImportAlike.bind (Field.importsOverlaid.table m.fields _ true _ _ _ hwindow)
  intro _ t t' ht
  have hstop : t'.position = t.position := ht.position_eq
  constructor
  · change Except.ok (MessageHeader.size + (t'.position - MessageHeader.size)) =
      Except.ok (MessageHeader.size + (t.position - MessageHeader.size))
    rw [hstop]
  · exact ht

theorem importJson_overlaid (templates : List MessageDef) (json : J)
    (h : a.length = b.length) :
    ImportAlike (Bytes.Overlaid a b) (MessageDef.importJson templates json)
      (MessageDef.importJson templates json) a b := by
  have hstart := Bytes.Overlaid.refl h
  cases hfind : templates.find? (·.name == (toString? (member json "template")).getD "") with
  | none =>
    unfold MessageDef.importJson
    dsimp only
    rw [hfind]
    exact .throw hstart _
  | some m =>
    refine ImportAlike.congr ?_ (MessageDef.importJson_of_find hfind a)
      (MessageDef.importJson_of_find hfind b)
    rcases Message.writeFrame_overlaid hstart m with ⟨e, hwrite, hwrite'⟩ |
      ⟨x, y, hx, hy, hwrite, hwrite', hoverlaid⟩
    · exact .bind_error (ofAction_of_error hwrite) (ofAction_of_error hwrite') hstart
    · exact .bind_ok (ofAction_of_ok hwrite) (ofAction_of_ok hwrite')
        (importBody_overlaid m json hx hy hoverlaid)

end

/-- An import comes to the same end whatever the buffer held before, and where what it leaves is not
the same, it has left the buffer alone. -/
theorem MessageDef.importJson_any_buffer {J : Type} [JsonValues J] (templates : List MessageDef)
    (json : J) (a b : Bytes) (h : a.length = b.length) :
    (MessageDef.importJson templates json b).1 = (MessageDef.importJson templates json a).1 ∧
      ∀ i : Nat,
        (MessageDef.importJson templates json a).2[i]? =
          (MessageDef.importJson templates json b).2[i]? ∨
        (MessageDef.importJson templates json a).2[i]? = a[i]? ∧
          (MessageDef.importJson templates json b).2[i]? = b[i]? := by
  obtain ⟨hresult, hoverlaid⟩ := importJson_overlaid templates json h
  exact ⟨hresult, hoverlaid.byte⟩

theorem MessageDef.importJson_any_buffer_emptyBook :
    (List.replicate 24 0 : Bytes).length = (List.replicate 24 255 : Bytes).length ∧
      ∃ json : JsonTree, (importJson Market.messages json (List.replicate 24 255)).1 =
          (importJson Market.messages json (List.replicate 24 0)).1 ∧
        (importJson Market.messages json (List.replicate 24 0)).1 =
          .error (.codec .fieldNotFound) := by
  refine ⟨rfl, object [("template", string "IncrementalRefresh_EmptyBook"),
    ("fields", object [("securityID", ofUInt64 7),
      ("matchEventIndicator", array [string "NoSuchMsg"])])], ?_, rfl⟩
  exact (importJson_any_buffer Market.messages _ (List.replicate 24 0) (List.replicate 24 255)
    rfl).1

end SimpleBinary
