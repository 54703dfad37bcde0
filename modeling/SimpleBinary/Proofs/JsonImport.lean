import SimpleBinary.Proofs.Cells
import SimpleBinary.Proofs.Forward
import SimpleBinary.Proofs.JsonContent
import SimpleBinary.Proofs.Store
import SimpleBinary.Proofs.Utf8

namespace SimpleBinary

namespace ImportAction

variable {σ α β : Type}

theorem bind_apply (x : ImportAction σ α) (f : α → ImportAction σ β) (s : σ) :
    (x >>= f) s = match x s with
      | (.ok a, t) => f a t
      | (.error e, t) => (.error e, t) := by
  have hstep : (x >>= f) s = ExceptT.bindCont f (x s).1 (x s).2 := rfl
  rw [hstep]
  rcases x s with ⟨result, t⟩
  cases result <;> rfl

theorem get_bind (f : σ → ImportAction σ α) (s : σ) : (get >>= f) s = f s s := rfl

theorem onPart_apply {τ : Type} (get : σ → τ) (set : τ → σ → σ) (action : ImportAction τ α)
    (s : σ) : onPart get set action s = ((action (get s)).1, set (action (get s)).2 s) := rfl

theorem ofAction_apply (action : Action σ α) (s : σ) :
    ofAction action s = ((action s).1.mapError .codec, (action s).2) := by
  have hstep : ofAction action s = (Except.mapError ImportError.codec (action s).1, (action s).2) :=
    rfl
  exact hstep

theorem ofAction_congr {action action' : Action σ α} {s : σ} (h : action s = action' s) :
    ofAction action s = ofAction action' s := by
  rw [ofAction_apply, ofAction_apply, h]

theorem ofAction_of_ok {action : Action σ α} {s t : σ} {a : α} (h : action s = (.ok a, t)) :
    ofAction action s = (.ok a, t) := by
  rw [ofAction_apply, h]
  rfl

theorem mapM_lift {γ : Type} {g : γ → Except ImportError α} {items : List γ} {results : List α}
    (h : items.mapM g = .ok results) (s : σ) :
    (items.mapM fun item => (liftM (g item) : ImportAction σ α)) s = (.ok results, s) := by
  induction items generalizing results with
  | nil =>
    cases h
    rfl
  | cons item rest ih =>
    rw [List.mapM_cons] at h ⊢
    cases hitem : g item with
    | error e =>
      rw [hitem] at h
      cases h
    | ok first =>
      cases hrest : rest.mapM g with
      | error e =>
        rw [hitem, hrest] at h
        cases h
      | ok others =>
        rw [hitem, hrest] at h
        cases h
        have hlift : (liftM (.ok first : Except ImportError α) : ImportAction σ α) s =
          (.ok first, s) := rfl
        rw [bind_apply, hlift]
        dsimp only
        rw [bind_apply, ih hrest]
        rfl

theorem bind_ofAction {x : ImportAction σ α} {f : α → ImportAction σ β} {action : Action σ α}
    {next : α → Action σ β} {s : σ} (hx : x s = ofAction action s)
    (hf : ∀ a t, action s = (.ok a, t) → f a t = ofAction (next a) t) :
    (x >>= f) s = ofAction (action >>= next) s := by
  rw [bind_apply, hx, ofAction_apply, ofAction_apply, Action.bind_apply]
  cases haction : action s with
  | mk result t =>
    cases result with
    | ok a =>
      have hnext := hf a t haction
      rw [ofAction_apply] at hnext
      exact hnext
    | error e => rfl

end ImportAction

open ImportAction JsonValues LawfulJsonValues

variable {J : Type} [JsonValues J]

namespace Field

variable {f : Field} {base : Nat} {enclosed : Bool} {w : Window} {json : J}

theorem ofJson_type {t : TypeDef} (hk : f.kind = .type t) :
    f.ofJson base enclosed json w = (f.bindAt base enclosed w.version).importType json w := by
  obtain ⟨name, id, offset, kind, presence, constant, since⟩ := f
  cases hk
  rfl

theorem ofJson_enum {e : EnumDef} (hk : f.kind = .enum e) :
    f.ofJson base enclosed json w = (f.bindAt base enclosed w.version).importEnum json w := by
  obtain ⟨name, id, offset, kind, presence, constant, since⟩ := f
  cases hk
  rfl

theorem ofJson_set {s : SetDef} (hk : f.kind = .set s) :
    f.ofJson base enclosed json w = (f.bindAt base enclosed w.version).importSet json w := by
  obtain ⟨name, id, offset, kind, presence, constant, since⟩ := f
  cases hk
  rfl

theorem ofJson_composite {c : CompositeDef} (hk : f.kind = .composite c) :
    f.ofJson base enclosed json w =
      fieldsOfJson (wordOf (base + f.offset)) (enclosed && f.inVersion w.version) c.fields
        json w := by
  obtain ⟨name, id, offset, kind, presence, constant, since⟩ := f
  cases hk
  rfl

theorem ofJson_data {d : DataDef} (hk : f.kind = .data d) :
    f.ofJson base enclosed json w =
      ofAction
        ((f.dataView d enclosed w.version).setValue (utf8 ((toString? json).getD ""))) w := by
  obtain ⟨name, id, offset, kind, presence, constant, since⟩ := f
  cases hk
  rfl

theorem ofJson_group {g : GroupDef} (hk : f.kind = .group g) :
    f.ofJson base enclosed json w =
      (ofAction (GroupView.bind f g (enclosed && f.inVersion w.version)) >>= fun view w =>
        let steps : ImportAction Iteration Unit := do
          ofAction (Iteration.resetCount ((toList? json).getD []).length)
          Iteration.importItems (fun base item => fieldsOfJson base true g.fields item)
            ((toList? json).getD [])
        ((steps ⟨view, w⟩).1, (steps ⟨view, w⟩).2.window)) w := by
  obtain ⟨name, id, offset, kind, presence, constant, since⟩ := f
  cases hk
  rfl

end Field

variable [LawfulJsonValues J]

theorem TypeDef.encode_absent {t : TypeDef} {v : Value} (hf : t.primitive.isFloat = false)
    (ha : t.admits v) (hn : t.nullable) (hv : t.isAbsent v) :
    (List.replicate t.length (t.primitive.encode t.null)).flatten = t.encode v := by
  cases v with
  | scalar s =>
    rw [ha.1, TypeDef.encode, Primitive.encode_eq_of_equal hf hv]
    simp
  | text characters =>
    obtain ⟨htext, -, -⟩ := ha
    have hnull : t.null = .uint 0 := by
      rcases Bool.or_eq_true_iff.mp hn with hone | hzero
      · exact absurd (beq_iff_eq.mp (Bool.and_eq_true_iff.mp hone).1)
          (length_ne_one_of_isText htext)
      · exact beq_iff_eq.mp (Bool.and_eq_true_iff.mp hzero).2
    have hzero : Primitive.char.encode (.uint 0) = [0] := by decide
    rw [hnull, primitive_of_isText htext, hzero, List.isEmpty_iff.mp hv]
    simp [TypeDef.encode, Bytes.padded]
  | array a => cases hv

namespace Binding

variable {b : Binding} {w : Window}

section

variable {t : TypeDef} {v : Value} (hk : b.field.kind = .type t)
include hk

theorem importType_null : b.importType (JsonValues.null : J) w = ofAction b.reset w := by
  unfold importType
  rw [typeDef_eq hk, view_null]
  rfl

theorem importType_string (characters : String) :
    b.importType (JsonValues.string characters : J) w =
      ofAction (b.setValue (.text (utf8 characters))) w := by
  unfold importType
  rw [typeDef_eq hk, view_string]
  rfl

theorem importType_array {items : List J} {parts : List Bytes}
    (h : items.mapM (fun item => (toScalar item t.primitive).map t.primitive.encode) = .ok parts) :
    b.importType (JsonValues.array items) w =
      ofAction (b.setValue (.array (.ofBytes parts.flatten t.primitive))) w := by
  unfold importType
  rw [typeDef_eq hk, view_array]
  dsimp only
  rw [bind_apply, mapM_lift h]
  rfl

theorem importType_scalar {s : Scalar} (hf : t.primitive.isFloat = false)
    (hs : t.primitive.Represents s) :
    b.importType (ofScalar s : J) w = ofAction (b.setValue (.scalar s)) w := by
  unfold importType
  rw [typeDef_eq hk, view_ofScalar hs hf]
  dsimp only
  rw [toScalar_ofScalar hs hf]
  rfl

theorem importType_toJson (hf : t.primitive.isFloat = false) (ha : t.admits v)
    (hl : b.field.legible (.value v)) :
    b.importType (v.toJson : J) w = ofAction (b.setValue v) w := by
  cases v with
  | scalar s => exact importType_scalar hk hf ha.2
  | text characters =>
    have hutf := Utf8.utf8_decodeLossy ((Field.legible_text hk).mp hl)
    rw [Value.toJson, importType_string hk, hutf]
  | array a =>
    have hp : a.primitive = t.primitive := ha.2.2.1
    have hlength : a.bytes.length = a.length * a.primitive.size := by
      rw [TypeDef.length_array ha, hp, ha.2.2.2, TypeDef.extent, Nat.mul_comm]
    have hitems := ScalarArray.mapM_toScalar (J := J) (hp ▸ hf) hlength
    rw [hp] at hitems
    rw [Value.toJson, importType_array hk hitems, ← hp, Bytes.flatten_pieces hlength, hp,
      TypeDef.ofBytes_array ha]

theorem reset_eq_setValue (hv : b.visible = true) (hs : b.field.since ≤ w.version)
    (hp : b.field.presence = .optional) (hf : t.primitive.isFloat = false) (ha : t.admits v)
    (hn : t.nullable) (habsent : t.isAbsent v) : b.reset w = b.setValue v w := by
  have hstored : b.field.presence ≠ .constant := by
    rw [hp]
    decide
  have hold : ¬ w.version < b.field.since := UInt16.not_lt.mpr hs
  have hnull : b.field.absent = t.encode v := by
    rw [Field.absent_type hk (TypeDef.extent_lt_of_nullable hn),
      TypeDef.encode_absent hf ha hn habsent]
  have hreset : b.editOptional w.version = .ok (some ⟨none, t.encode v⟩) := by
    rw [editOptional, if_pos hv, Field.editReset_eq, if_neg hold, if_neg (not_not.mpr hp),
      Field.editAbsent, hk, ← hnull]
  have hvalue : b.editValue t v = .ok ⟨none, t.encode v⟩ := by
    cases v with
    | scalar s => rw [editValue, if_neg (not_not.mpr ha.1), TypeDef.encode]
    | text characters =>
      rw [editValue, if_neg (not_not.mpr (TypeDef.primitive_of_isText ha.1)), editText,
        if_neg (Nat.not_lt.mpr ha.2.2), TypeDef.encode]
    | array a => cases habsent
  have hset : b.editOf w.version v = .ok (some ⟨none, t.encode v⟩) := by
    rw [editOf, typeDef_eq hk, Action.ok_bind, editStored, constant?_of_stored hstored,
      Action.ok_bind, editVisible, if_pos hv, hvalue, Except.map]
  rw [reset_eq, setValue_eq, hreset, hset]

end

theorem importType_constant {t : TypeDef} (hk : b.field.kind = .type t)
    (hp : b.field.presence = .constant) {c : Constant} (hc : b.field.constant = some c)
    (hf : t.primitive.isFloat = false) (hportable : c.portable t.primitive) :
    b.importType (c.toValue.toJson : J) w = (.ok ⟨⟩, w) := by
  have hset {value : Value} (hmatches : c.matchesValue t.primitive value) :
      b.setValue value w = (.ok ⟨⟩, w) := by
    rw [setValue_eq, editOf, typeDef_eq hk, Action.ok_bind, editStored,
      constant?_of_constant hp hc, Action.ok_bind]
    dsimp only
    rw [editNothing, if_neg (by rw [hmatches]; decide), settle_none]
  cases c with
  | scalar s =>
    have hs : t.primitive.Represents s := by
      rw [← beq_iff_eq.mp hportable]
      exact Primitive.represents_decode _ _
    rw [Constant.toValue, Value.toJson, importType_scalar hk hf hs]
    exact ofAction_of_ok (hset (Primitive.equal_self _ s))
  | text characters =>
    rw [Constant.toValue, Value.toJson, importType_string hk, Utf8.utf8_decodeLossy hportable]
    exact ofAction_of_ok (hset (beq_self_eq_true _))

theorem importEnum_jsonOf {e : EnumDef} (hk : b.field.kind = .enum e)
    (hnames : ∀ v ∈ e.values, e.valueOf? v.name = some v.value) (n : UInt64) :
    b.importEnum (e.jsonOf n : J) w = ofAction (b.setEnumRaw n) w := by
  unfold EnumDef.jsonOf EnumDef.nameOf?
  cases hfind : e.values.find? (·.value == n) with
  | none =>
    have hraw : toScalar (ofUInt64 n : J) .uint64 = .ok (.uint n) :=
      toScalar_ofScalar (s := .uint n) ⟨rfl, Nat.le_of_lt_succ n.toNat_lt⟩ rfl
    dsimp only [Option.map]
    rw [importEnum, view_ofUInt64, hraw]
    rfl
  | some v =>
    have hvalue := List.find?_some hfind
    rw [beq_iff_eq] at hvalue
    have hname := hnames v (List.mem_of_find?_eq_some hfind)
    have hset : b.setEnumName v.name w = b.setEnumRaw n w := by
      rw [setEnumName, enumDef_eq hk]
      simp only [Action.bind_apply, Action.lift_apply, hname, hvalue]
    dsimp only [Option.map]
    rw [importEnum, view_string]
    exact ofAction_congr hset

theorem importEnum_null : b.importEnum (null : J) w = ofAction b.reset w := by
  rw [importEnum, view_null]
  rfl

theorem reset_eq_setEnumRaw {e : EnumDef} (hk : b.field.kind = .enum e) (hv : b.visible = true)
    (hs : b.field.since ≤ w.version) (hp : b.field.presence = .optional) :
    b.reset w = b.setEnumRaw e.null w := by
  have hstored : b.field.presence ≠ .constant := by
    rw [hp]
    decide
  have hold : ¬ w.version < b.field.since := UInt16.not_lt.mpr hs
  rw [reset_eq, setEnumRaw_eq, editOptional, if_pos hv, Field.editReset_eq, if_neg hold,
    if_neg (not_not.mpr hp), Field.editAbsent, hk, editRaw, enumDef_eq hk,
    Action.ok_bind, constantRaw?_of_stored hstored, Action.ok_bind]
  dsimp only
  rw [editVisible, if_pos hv, Field.absent, hk]
  rfl

theorem importSet_jsonOf {s : SetDef} (hk : b.field.kind = .set s) (hs : s.Named) {set : BitSet}
    (he : set.encoding = s.encoding) :
    b.importSet (s.jsonOf set : J) w = ofAction (b.setBits set) w := by
  have hchosen := hs.chosen_names (J := J) he
  apply ofAction_congr
  simp only [setDef_eq hk, SetDef.jsonOf, toList?_array, Option.getD_some, hchosen,
    Action.bind_apply, Action.lift_apply]

end Binding

section

variable {r : Window → Window → Prop} [IsPreorder Window r]
  (hw : ∀ start part, Leads r (Window.write start part))
  (ha : ∀ size, Leads r (Window.advance size))

include hw ha

omit hw in
theorem Iteration.keeps_window_storeElements {store : Nat → List FieldContent → Action Window Unit}
    (h : ∀ base content, Leads r (store base content)) (contents : List (List FieldContent)) :
    Leads (Windows r) (storeElements store contents) := by
  induction contents with
  | nil => exact .pure _
  | cons content rest ih =>
    refine Leads.bind (keeps_window_next ha) fun base => ?_
    exact .bind (keeps_window_onWindow (h base content)) fun _ => ih

theorem keeps_store :
    TableInduction
      (fun f => ∀ base enclosed content, Leads r (f.store base enclosed content))
      (fun fields => ∀ base enclosed contents,
        Leads r (storeFields base enclosed fields contents)) where
  type f t hk := by
    intro base enclosed content
    obtain ⟨name, id, offset, kind, presence, constant, since⟩ := f
    cases hk
    cases content with
    | value v => exact .get_bind fun _ => FieldOperation.leads hw (.setValue v) _
    | _ => exact .pure _
  enum f e hk := by
    intro base enclosed content
    obtain ⟨name, id, offset, kind, presence, constant, since⟩ := f
    cases hk
    cases content with
    | raw n => exact .get_bind fun _ => FieldOperation.leads hw (.setEnumRaw n) _
    | _ => exact .pure _
  set f s hk := by
    intro base enclosed content
    obtain ⟨name, id, offset, kind, presence, constant, since⟩ := f
    cases hk
    cases content with
    | bits set => exact .get_bind fun _ => FieldOperation.leads hw (.setBits set) _
    | _ => exact .pure _
  composite f c hk ih := by
    intro base enclosed content
    obtain ⟨name, id, offset, kind, presence, constant, since⟩ := f
    cases hk
    cases content with
    | members contents => exact .get_bind fun _ => ih _ _ contents
    | _ => exact .pure _
  group f g hk ih := by
    intro base enclosed content
    obtain ⟨name, id, offset, kind, presence, constant, since⟩ := f
    cases hk
    cases content with
    | elements contents =>
      apply Leads.get_bind
      intro w
      refine Leads.bind (GroupView.keeps_bind ha _ g _) fun view => ?_
      intro v
      exact Leads.bind (Iteration.keeps_window_resetCount hw contents.length)
        (fun _ => Iteration.keeps_window_storeElements ha (fun base => ih base true) contents)
        ⟨view, v⟩
    | _ => exact .pure _
  data f d hk := by
    intro base enclosed content
    obtain ⟨name, id, offset, kind, presence, constant, since⟩ := f
    cases hk
    cases content with
    | payload bytes => exact .get_bind fun _ => DataView.keeps_setValue hw ha bytes
    | _ => exact .pure _
  nil := fun _ _ _ => .pure _
  cons f rest hf ih := by
    intro base enclosed contents
    cases contents with
    | nil => exact .pure _
    | cons content contents => exact .bind (hf base enclosed content) fun _ => ih base enclosed _

end

theorem Window.keeps_version_advance (size : Nat) : Keeps Window.version (advance size) :=
  Keeps.comp (keeps_advance size) Window.version

theorem Window.keeps_version_write (start : Nat) (part : Bytes) :
    Keeps Window.version (write start part) := by
  intro w
  by_cases hle : start + part.length ≤ w.limit
  · rw [write_of_le hle]
    rfl
  · rw [write_of_lt (Nat.lt_of_not_le hle)]

theorem keeps_version_store :
    TableInduction
      (fun f => ∀ base enclosed content, Keeps Window.version (f.store base enclosed content))
      (fun fields => ∀ base enclosed contents,
        Keeps Window.version (storeFields base enclosed fields contents)) :=
  keeps_store Window.keeps_version_write Window.keeps_version_advance

def Field.Imports (J : Type) [JsonValues J] (f : Field) : Prop :=
  ∀ (base : Nat) (content : FieldContent) (w : Window), f.portable → f.wellFormed w.version →
    f.admits content → f.legible content →
    f.ofJson base true (f.jsonOf content : J) w = ofAction (f.store base true content) w

def ImportsFields (J : Type) [JsonValues J] (fields : List Field) : Prop :=
  ∀ (base : Nat) (contents : List FieldContent) (w : Window) (json : J), portableFields fields →
    wellFormedFields w.version fields → admitsFields fields contents →
    legibleFields fields contents →
    (∀ member ∈ membersOf fields contents, JsonValues.member json member.1 = member.2) →
    fieldsOfJson base true fields json w = ofAction (storeFields base true fields contents) w

theorem ImportsFields.object {fields : List Field} (h : ImportsFields J fields)
    {contents : List FieldContent} {w : Window} (hp : portableFields fields)
    (hn : (fields.map Field.name).Nodup) (hwf : wellFormedFields w.version fields)
    (ha : admitsFields fields contents) (hl : legibleFields fields contents) (base : Nat) :
    fieldsOfJson base true fields (object (membersOf fields contents) : J) w =
      ofAction (storeFields base true fields contents) w := by
  apply h base contents w _ hp hwf ha hl
  intro member hm
  apply member_of_mem _ hm
  rw [names_membersOf ha]
  exact hn

namespace Field

theorem imports_type (f : Field) (t : TypeDef) (hk : f.kind = .type t) : f.Imports J := by
  intro base content w hportable hwf ha hl
  obtain ⟨hf, -, hn, hconstant⟩ := portable_type hk hportable
  have hsince := (wellFormed_type hk).mp hwf
  have hv : (f.bindAt base true w.version).visible = true := decide_eq_true hsince
  rw [ofJson_type hk]
  rcases admits_type hk ha with ⟨rfl, hp⟩ | ⟨v, rfl, hp, ha⟩
  · obtain ⟨c, hc, hportable⟩ := hconstant hp
    rw [jsonOf_constant hk hc, ofAction_of_ok (store_none f w)]
    exact Binding.importType_constant hk hp hc hf hportable
  · rw [jsonOf_type hk]
    split
    · next habsent =>
      rw [Binding.importType_null hk]
      apply ofAction_congr
      rw [store_type hk]
      exact Binding.reset_eq_setValue hk hv hsince habsent.1 hf ha (hn habsent.1) habsent.2
    · rw [Binding.importType_toJson hk hf ha hl]
      exact ofAction_congr (store_type hk v).symm

theorem imports_enum (f : Field) (e : EnumDef) (hk : f.kind = .enum e) : f.Imports J := by
  intro base content w hportable hwf ha _
  obtain ⟨hnames, hstored, -, -⟩ := portable_enum hk hportable
  obtain ⟨hsince, -⟩ := (wellFormed_enum hk).mp hwf
  have hv : (f.bindAt base true w.version).visible = true := decide_eq_true hsince
  rcases admits_enum hk ha with ⟨-, hp⟩ | ⟨n, rfl, -, -⟩
  · exact absurd hp hstored
  · rw [ofJson_enum hk, jsonOf_enum hk]
    split
    · next habsent =>
      obtain ⟨hp, rfl⟩ := habsent
      rw [Binding.importEnum_null]
      apply ofAction_congr
      rw [store_enum hk]
      exact Binding.reset_eq_setEnumRaw hk hv hsince hp
    · rw [Binding.importEnum_jsonOf hk hnames]
      exact ofAction_congr (store_enum hk n).symm

theorem imports_set (f : Field) (s : SetDef) (hk : f.kind = .set s) : f.Imports J := by
  intro base content w hportable _ ha _
  obtain ⟨hstored, hnamed⟩ := (portable_set hk).mp hportable
  rcases admits_set hk ha with ⟨-, hp⟩ | ⟨set, rfl, -, he⟩
  · exact absurd hp hstored
  · rw [ofJson_set hk, jsonOf_set hk, Binding.importSet_jsonOf hk hnamed he]
    exact ofAction_congr (store_set hk set).symm

theorem imports_composite (f : Field) (c : CompositeDef) (hk : f.kind = .composite c)
    (ih : ImportsFields J c.fields) : f.Imports J := by
  intro base content w hportable hwf ha hl
  obtain ⟨hstored, -, hnames, hportable⟩ := (portable_composite hk).mp hportable
  obtain ⟨hsince, -, -, hwf⟩ := (wellFormed_composite hk).mp hwf
  have hv : f.inVersion w.version = true := decide_eq_true hsince
  rcases admits_composite hk ha with ⟨-, hp⟩ | ⟨contents, rfl, -, ha⟩
  · exact absurd hp hstored
  · rw [ofJson_composite hk, jsonOf_composite hk, hv, Bool.and_self,
      ih.object hportable hnames hwf ha ((legible_composite hk).mp hl)]
    apply ofAction_congr
    rw [store_composite hk, hv, Bool.and_self]

theorem imports_data (f : Field) (d : DataDef) (hk : f.kind = .data d) : f.Imports J := by
  intro base content w _ _ ha hl
  obtain ⟨bytes, rfl, -⟩ := admits_data hk ha
  rw [ofJson_data hk, jsonOf_data hk]
  apply ofAction_congr
  rw [store_data hk, toString?_string, Option.getD_some,
    Utf8.utf8_decodeLossy ((legible_data hk).mp hl)]

end Field

theorem importItems_eq {fields : List Field} (ih : ImportsFields J fields)
    (hp : portableFields fields) (hn : (fields.map Field.name).Nodup) {version : UInt16}
    (hwf : wellFormedFields version fields) (contents : List (List FieldContent))
    (ha : ∀ content ∈ contents, admitsFields fields content)
    (hl : ∀ content ∈ contents, legibleFields fields content) (it : Iteration)
    (hversion : it.window.version = version) :
    Iteration.importItems (fun base item => fieldsOfJson base true fields item)
        (contents.map fun content => (object (membersOf fields content) : J)) it =
      ofAction
        (Iteration.storeElements (fun base => storeFields base true fields) contents) it := by
  induction contents generalizing it with
  | nil => rfl
  | cons content rest hrest =>
    apply bind_ofAction rfl
    intro base it₁ hnext
    have hversion₁ : it₁.window.version = version := by
      have hkept : it₁.window.version = it.window.version :=
        (Iteration.keeps_window_next Window.keeps_version_advance).after hnext
      rw [hkept, hversion]
    have hcontent := ih.object hp hn (hversion₁ ▸ hwf) (ha content List.mem_cons_self)
      (hl content List.mem_cons_self) base
    apply bind_ofAction
    · change ((fieldsOfJson base true fields _ it₁.window).1, _) = _
      rw [hcontent]
      rfl
    · intro _ it₂ hstore
      apply hrest (fun other hother => ha other (List.mem_cons_of_mem content hother))
        (fun other hother => hl other (List.mem_cons_of_mem content hother))
      have hkept : it₂.window.version = it₁.window.version := (Iteration.keeps_window_onWindow
        (keeps_version_store.table fields base true content)).after hstore
      rw [hkept, hversion₁]

theorem Field.imports_group (f : Field) (g : GroupDef) (hk : f.kind = .group g)
    (ih : ImportsFields J g.fields) : f.Imports J := by
  intro base content w hportable hwf ha hl
  obtain ⟨hnames, hportable⟩ := (portable_group hk).mp hportable
  obtain ⟨-, -, -, hwf⟩ := (wellFormed_group hk).mp hwf
  obtain ⟨contents, rfl, -, ha⟩ := admits_group hk ha
  have hl := (legible_group hk).mp hl
  have hstore : f.store base true (.elements contents) w =
      (GroupView.bind f g (true && f.inVersion w.version) >>= fun view =>
        Iteration.run view do
          Iteration.resetCount contents.length
          Iteration.storeElements (fun base => storeFields base true g.fields) contents) w := by
    obtain ⟨name, id, offset, kind, presence, constant, since⟩ := f
    cases hk
    rfl
  rw [ofJson_group hk, jsonOf_group hk, ofAction_congr hstore]
  apply bind_ofAction rfl
  intro view v hbind
  have hversion : v.version = w.version :=
    (GroupView.keeps_bind Window.keeps_version_advance f g _).after hbind
  have hsteps : (do
      ofAction (Iteration.resetCount (contents.map fun element =>
        (object (membersOf g.fields element) : J)).length)
      Iteration.importItems (fun base item => fieldsOfJson base true g.fields item)
        (contents.map fun element => (object (membersOf g.fields element) : J)) :
          ImportAction Iteration Unit) ⟨view, v⟩ =
      ofAction (do
        Iteration.resetCount contents.length
        Iteration.storeElements (fun base => storeFields base true g.fields) contents)
          ⟨view, v⟩ := by
    apply bind_ofAction
    · rw [List.length_map]
    · intro _ it hreset
      have hkept : it.window.version = v.version :=
        (Iteration.keeps_window_resetCount Window.keeps_version_write contents.length).after hreset
      exact importItems_eq ih hportable hnames hwf contents ha hl it (hkept.trans hversion)
  simp only [toList?_array, Option.getD_some, hsteps]
  rfl

theorem imports : TableInduction (Field.Imports J) (ImportsFields J) where
  type := Field.imports_type
  enum := Field.imports_enum
  set := Field.imports_set
  composite := Field.imports_composite
  group := Field.imports_group
  data := Field.imports_data
  nil := by
    intro base contents w json _ _ _ _ _
    rfl
  cons f rest hf ih := by
    intro base contents w json hportable hwf ha hl hjson
    cases contents with
    | nil => cases ha
    | cons content contents =>
      obtain ⟨hportable, hportableRest⟩ := portableFields_cons.mp hportable
      obtain ⟨hwf, hwfRest⟩ := wellFormedFields_cons.mp hwf
      apply bind_ofAction
      · rw [hjson (f.name, f.jsonOf content) List.mem_cons_self]
        exact hf base content w hportable hwf ha.1 hl.1
      · intro _ v hstore
        have hversion : v.version = w.version :=
          (keeps_version_store.field f base true content).after hstore
        exact ih base contents v json hportableRest (hversion ▸ hwfRest) ha.2 hl.2
          fun member hm => hjson member (List.mem_cons_of_mem _ hm)

end SimpleBinary
