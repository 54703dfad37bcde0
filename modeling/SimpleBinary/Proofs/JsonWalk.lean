import SimpleBinary.Proofs.JsonExport
import SimpleBinary.Proofs.RoundTrip

namespace SimpleBinary

variable {J : Type} [JsonValues J]

namespace Field

variable {f : Field} {base : Nat} {enclosed : Bool} {w : Window}

theorem toJson_type {t : TypeDef} (hk : f.kind = .type t) :
    f.toJson base enclosed w =
      (((f.bindAt base enclosed w.version).exportType w : Except Error J), w) := by
  obtain ⟨name, id, offset, kind, presence, constant, since⟩ := f
  cases hk
  rfl

theorem toJson_enum {e : EnumDef} (hk : f.kind = .enum e) :
    f.toJson base enclosed w =
      (((f.bindAt base enclosed w.version).exportEnum w : Except Error J), w) := by
  obtain ⟨name, id, offset, kind, presence, constant, since⟩ := f
  cases hk
  rfl

theorem toJson_set {s : SetDef} (hk : f.kind = .set s) :
    f.toJson base enclosed w =
      (((f.bindAt base enclosed w.version).exportSet w : Except Error J), w) := by
  obtain ⟨name, id, offset, kind, presence, constant, since⟩ := f
  cases hk
  rfl

theorem toJson_composite {c : CompositeDef} (hk : f.kind = .composite c) :
    f.toJson base enclosed w =
      (do return JsonValues.object (← fieldsToJson (wordOf (base + f.offset))
        (enclosed && f.inVersion w.version) c.fields) : Action Window J) w := by
  obtain ⟨name, id, offset, kind, presence, constant, since⟩ := f
  cases hk
  rfl

theorem toJson_group {g : GroupDef} (hk : f.kind = .group g) :
    f.toJson base enclosed w = (do
      let view ← GroupView.bind f g (enclosed && f.inVersion w.version)
      let elements ← Iteration.run view <|
        Iteration.collect (fun base => fieldsToJson base true g.fields) view.count
      return JsonValues.array (elements.map JsonValues.object) : Action Window J) w := by
  obtain ⟨name, id, offset, kind, presence, constant, since⟩ := f
  cases hk
  rfl

theorem toJson_data {d : DataDef} (hk : f.kind = .data d) :
    f.toJson base enclosed w =
      (do return JsonValues.string (Utf8.decodeLossy (← (f.dataView d enclosed w.version).value)) :
        Action Window J) w := by
  obtain ⟨name, id, offset, kind, presence, constant, since⟩ := f
  cases hk
  rfl

variable {version : UInt16} {name : String} {present : Except Error Bool}

theorem shows_value {t : TypeDef} (hk : f.kind = .type t) {v : Value} {value : Except Error Value}
    (h : f.shows version (.value v) (.type name present value)) : value = .ok v := by
  obtain ⟨name, id, offset, kind, presence, constant, since⟩ := f
  cases hk
  obtain ⟨_, h⟩ := h
  cases h
  rfl

theorem shows_raw {e : EnumDef} (hk : f.kind = .enum e) {n : UInt64} {raw : Except Error UInt64}
    {symbol : Except Error (Option String)}
    (h : f.shows version (.raw n) (.enum name present raw symbol)) : raw = .ok n := by
  obtain ⟨name, id, offset, kind, presence, constant, since⟩ := f
  cases hk
  obtain ⟨_, h⟩ := h
  cases h
  rfl

theorem shows_bits {s : SetDef} (hk : f.kind = .set s) {set : BitSet} {bits : Except Error BitSet}
    {choices : Except Error (List (String × Bool))}
    (h : f.shows version (.bits set) (.set name present bits choices)) : bits = .ok set := by
  obtain ⟨name, id, offset, kind, presence, constant, since⟩ := f
  cases hk
  obtain ⟨_, h⟩ := h
  cases h
  rfl

theorem shows_members {c : CompositeDef} (hk : f.kind = .composite c)
    {contents : List FieldContent} {members : List Reading}
    (h : f.shows version (.members contents) (.composite name present members)) :
    showsFields version c.fields contents members := by
  obtain ⟨name, id, offset, kind, presence, constant, since⟩ := f
  cases hk
  obtain ⟨_, _, h, hmembers⟩ := h
  cases h
  exact hmembers

theorem shows_elements {g : GroupDef} (hk : f.kind = .group g)
    {contents : List (List FieldContent)} {reading : Reading}
    (h : f.shows version (.elements contents) reading) :
    ∃ elements, reading = .group f.name contents.length g.blockLength elements ∧
      g.ShowsElements version contents elements := by
  obtain ⟨name, id, offset, kind, presence, constant, since⟩ := f
  cases hk
  exact h

theorem shows_payload {d : DataDef} (hk : f.kind = .data d) {bytes : Bytes}
    {length : Except Error Nat} {value : Except Error Bytes}
    (h : f.shows version (.payload bytes) (.data name length value)) :
    length = .ok (d.elementCount bytes) ∧ value = .ok bytes := by
  obtain ⟨name, id, offset, kind, presence, constant, since⟩ := f
  cases hk
  cases h
  exact ⟨rfl, rfl⟩

def ExportsShown (J : Type) [JsonValues J] (f : Field) : Prop :=
  ∀ (base : Nat) (content : FieldContent) (w : Window), f.portable → f.wellFormed w.version →
    w.limit ≤ w.bytes.length → f.admits content →
    f.shows w.version content (f.walk base true w).1 →
    f.toJson base true w = (.ok (f.jsonOf content : J), (f.walk base true w).2)

end Field

def ExportsShownFields (J : Type) [JsonValues J] (fields : List Field) : Prop :=
  ∀ (base : Nat) (contents : List FieldContent) (w : Window), portableFields fields →
    wellFormedFields w.version fields → w.limit ≤ w.bytes.length → admitsFields fields contents →
    showsFields w.version fields contents (walkFields base true fields w).1 →
    fieldsToJson base true fields w =
      (.ok (membersOf fields contents : List (String × J)), (walkFields base true fields w).2)

theorem Window.readScalar_le_rawMax {w : Window} {start : Nat} {p : Primitive} {s : Scalar}
    (hu : p.isUnsigned) (h : w.readScalar start p = .ok s) : s.toUInt64.toNat ≤ p.rawMax := by
  cases hread : w.read start p.size with
  | error e =>
    rw [readScalar, hread] at h
    cases h
  | ok part =>
    rw [readScalar_of_read hread] at h
    cases h
    exact Primitive.decode_le_rawMax hu part

theorem Window.limit_of_frame {w w' : Window} (h : w'.frame = w.frame)
    (hw : w.limit ≤ w.bytes.length) : w'.limit ≤ w'.bytes.length := by
  have hlimit : w'.limit = w.limit := (congrArg limit h :)
  have hbytes : w'.bytes = w.bytes := (congrArg bytes h :)
  rw [hlimit, hbytes]
  exact hw

namespace Field

theorem exportsShown_type (f : Field) (t : TypeDef) (hk : f.kind = .type t) : f.ExportsShown J := by
  intro base content w hportable hwf hw ha hshows
  obtain ⟨-, -, hn, -⟩ := portable_type hk hportable
  have hsince := (wellFormed_type hk).mp hwf
  have hv := visible_bindAt hsince base
  rw [walk_type hk] at hshows ⊢
  rw [toJson_type hk]
  rcases admits_type hk ha with ⟨rfl, hp⟩ | ⟨v, rfl, hp, -⟩
  · obtain ⟨-, -, -, hconstant⟩ := portable_type hk hportable
    obtain ⟨c, hc, -⟩ := hconstant hp
    rw [Binding.exportType_of_constant hv hk hsince hp hc]
    rfl
  · rw [Binding.exportType_of_value ⟨hv, hp⟩ hk (extent_lt_of_portable hk hportable) hsince hn hw
      (shows_value hk hshows)]
    rfl

theorem exportsShown_enum (f : Field) (e : EnumDef) (hk : f.kind = .enum e) : f.ExportsShown J := by
  intro base content w hportable hwf _ ha hshows
  obtain ⟨-, hstored, -, -⟩ := portable_enum hk hportable
  obtain ⟨hsince, -⟩ := (wellFormed_enum hk).mp hwf
  rw [walk_enum hk] at hshows ⊢
  rw [toJson_enum hk]
  rcases admits_enum hk ha with ⟨-, hp⟩ | ⟨n, rfl, hp, -⟩
  · exact absurd hp hstored
  · rw [Binding.exportEnum_of_raw ⟨visible_bindAt hsince base, hp⟩ hk hsince
      (shows_raw hk hshows)]
    rfl

theorem exportsShown_set (f : Field) (s : SetDef) (hk : f.kind = .set s) : f.ExportsShown J := by
  intro base content w hportable _ _ ha hshows
  obtain ⟨hstored, hnamed⟩ := (portable_set hk).mp hportable
  rw [walk_set hk] at hshows ⊢
  rw [toJson_set hk]
  rcases admits_set hk ha with ⟨-, hp⟩ | ⟨set, rfl, -, -⟩
  · exact absurd hp hstored
  · rw [Binding.exportSet_of_bits hk hnamed (shows_bits hk hshows)]
    rfl

theorem exportsShown_composite (f : Field) (c : CompositeDef) (hk : f.kind = .composite c)
    (ih : ExportsShownFields J c.fields) : f.ExportsShown J := by
  intro base content w hportable hwf hw ha hshows
  obtain ⟨hstored, -, -, hportable⟩ := (portable_composite hk).mp hportable
  obtain ⟨hsince, -, -, hwf⟩ := (wellFormed_composite hk).mp hwf
  have hv : (true && f.inVersion w.version) = true := decide_eq_true hsince
  rcases admits_composite hk ha with ⟨-, hp⟩ | ⟨contents, rfl, -, ha⟩
  · exact absurd hp hstored
  · rw [walk_composite hk, hv] at hshows ⊢
    rw [toJson_composite hk, hv, jsonOf_composite hk,
      Action.bind_of_ok (ih _ contents w hportable hwf hw ha (shows_members hk hshows))]
    rfl

theorem exportsShown_data (f : Field) (d : DataDef) (hk : f.kind = .data d) : f.ExportsShown J := by
  intro base content w _ _ _ ha hshows
  obtain ⟨bytes, rfl, -⟩ := admits_data hk ha
  rw [walk_data hk] at hshows ⊢
  have hvalue : (f.dataView d true w.version).value w =
      (.ok bytes, ((f.dataView d true w.version).value w).2) :=
    Prod.ext (shows_payload hk hshows).2 rfl
  rw [toJson_data hk, Action.bind_of_ok hvalue, jsonOf_data hk]
  rfl

end Field

theorem collect_of_ok {α : Type} {visit : Nat → Action Window α} {n base : Nat} {it it' : Iteration}
    (h : Iteration.next it = (.ok base, it')) :
    Iteration.collect visit (n + 1) it =
      (do
        let first ← Iteration.onWindow (visit base)
        return first :: (← Iteration.collect visit n)) it' := by
  rw [Iteration.collect, Action.bind_of_ok h]

theorem GroupOf.ShowsElements.visited {g : GroupDef} {version : UInt16}
    {content : List FieldContent} {rest : List (List FieldContent)} {it : Iteration}
    (h : g.ShowsElements version (content :: rest)
      (Walk.elements (fun base => walkFields base true g.fields) (rest.length + 1) it).1) :
    ∃ base it', Iteration.next it = (.ok base, it') ∧
      showsFields version g.fields content (walkFields base true g.fields it'.window).1 ∧
      g.ShowsElements version rest
        (Walk.elements (fun base => walkFields base true g.fields) rest.length
          ⟨it'.group, (walkFields base true g.fields it'.window).2⟩).1 ∧
      (Walk.elements (fun base => walkFields base true g.fields) (rest.length + 1) it).2 =
        (Walk.elements (fun base => walkFields base true g.fields) rest.length
          ⟨it'.group, (walkFields base true g.fields it'.window).2⟩).2 := by
  cases hnext : Iteration.next it with
  | mk result it' =>
    cases result with
    | error reason =>
      rw [Walk.elements_of_error hnext] at h
      cases h with
      | cons hfirst _ =>
        obtain ⟨readings, hreadings, -⟩ := hfirst
        cases hreadings
    | ok base =>
      rw [Walk.elements_of_ok hnext] at h ⊢
      cases h with
      | cons hfirst hothers =>
        obtain ⟨readings, hreadings, hfields⟩ := hfirst
        cases hreadings
        exact ⟨base, it', rfl, hfields, hothers, rfl⟩

theorem collect_shown {g : GroupDef} {version : UInt16} (hportable : portableFields g.fields)
    (hwf : wellFormedFields version g.fields) (ih : ExportsShownFields J g.fields)
    (contents : List (List FieldContent)) (ha : ∀ content ∈ contents, admitsFields g.fields content)
    (it : Iteration) (hversion : it.window.version = version)
    (hw : it.window.limit ≤ it.window.bytes.length)
    (hshows : g.ShowsElements version contents
      (Walk.elements (fun base => walkFields base true g.fields) contents.length it).1) :
    Iteration.collect (fun base => fieldsToJson base true g.fields) contents.length it =
      (.ok (contents.map (membersOf g.fields) : List (List (String × J))),
        (Walk.elements (fun base => walkFields base true g.fields) contents.length it).2) := by
  induction contents generalizing it with
  | nil => rfl
  | cons content rest hrest =>
    rw [List.length_cons] at hshows ⊢
    obtain ⟨base, it', hnext, hfields, hothers, hafter⟩ := hshows.visited
    have hframe := (Iteration.keeps_window_next Window.keeps_advance).after hnext
    have hversion' := (Window.version_of_frame hframe).trans hversion
    have hw' := Window.limit_of_frame hframe hw
    have hwalk := frame_walk.table g.fields base true it'.window
    have hfirst := ih base content it'.window hportable (hversion' ▸ hwf) hw'
      (ha content List.mem_cons_self) (hversion' ▸ hfields)
    have hothers := hrest (fun other hother => ha other (List.mem_cons_of_mem content hother))
      _ ((Window.version_of_frame hwalk).trans hversion') (Window.limit_of_frame hwalk hw') hothers
    rw [collect_of_ok hnext, hafter]
    simp only [Action.bind_apply, Iteration.onWindow, Action.onPart_apply, hfirst, hothers,
      Action.pure_apply, List.map_cons]

theorem Field.bound_of_shown {f : Field} {g : GroupDef} (hk : f.kind = .group g) {version : UInt16}
    {base : Nat} {contents : List (List FieldContent)} {w : Window}
    (h : f.shows version (.elements contents) (f.walk base true w).1) :
    ∃ view v, GroupView.bind f g (true && f.inVersion w.version) w = (.ok view, v) ∧
      v.frame = w.frame ∧ view.count = contents.length ∧ view.blockLength = g.blockLength ∧
      g.ShowsElements version contents (Walk.elements
        (fun base => walkFields base true g.fields) contents.length ⟨view, v⟩).1 ∧
      (f.walk base true w).2 = (Walk.elements
        (fun base => walkFields base true g.fields) contents.length ⟨view, v⟩).2.window := by
  obtain ⟨elements, hreading, helements⟩ := shows_elements hk h
  cases hbind : GroupView.bind f g (true && f.inVersion w.version) w with
  | mk result v =>
    cases result with
    | error reason =>
      rw [walk_group_of_error hk hbind] at hreading
      cases hreading
    | ok view =>
      have hframe := (GroupView.keeps_bind Window.keeps_advance f g _).after hbind
      rw [walk_group_of_ok hk hbind] at hreading ⊢
      injection hreading with _ hcount hblock hread
      rw [hcount] at hread ⊢
      rw [← hread] at helements
      exact ⟨view, v, rfl, hframe, hcount, hblock, helements, rfl⟩

theorem Field.exportsShown_group (f : Field) (g : GroupDef) (hk : f.kind = .group g)
    (ih : ExportsShownFields J g.fields) : f.ExportsShown J := by
  intro base content w hportable hwf hw ha hshows
  obtain ⟨-, hportable⟩ := (portable_group hk).mp hportable
  obtain ⟨-, -, -, hwf⟩ := (wellFormed_group hk).mp hwf
  obtain ⟨contents, rfl, -, ha⟩ := admits_group hk ha
  obtain ⟨view, v, hbind, hframe, hcount, -, helements, hafter⟩ := bound_of_shown hk hshows
  have hcollect := collect_shown hportable hwf ih contents ha ⟨view, v⟩
    (Window.version_of_frame hframe) (Window.limit_of_frame hframe hw) helements
  rw [toJson_group hk, Action.bind_of_ok hbind, hcount, jsonOf_group hk, hafter]
  simp only [Action.bind_apply, Iteration.run, hcollect, Action.pure_apply, List.map_map]
  rfl

theorem exportsShown : TableInduction (Field.ExportsShown J) (ExportsShownFields J) where
  type := Field.exportsShown_type
  enum := Field.exportsShown_enum
  set := Field.exportsShown_set
  composite := Field.exportsShown_composite
  group := Field.exportsShown_group
  data := Field.exportsShown_data
  nil := by
    intro base contents w _ _ _ ha _
    cases contents with
    | nil => rfl
    | cons content contents => cases ha
  cons f rest hf ih := by
    intro base contents w hportable hwf hw ha hshows
    cases contents with
    | nil => cases ha
    | cons content contents =>
      obtain ⟨hportable, hportableRest⟩ := portableFields_cons.mp hportable
      obtain ⟨hwf, hwfRest⟩ := wellFormedFields_cons.mp hwf
      rw [walkFields_cons] at hshows ⊢
      have hwalk := frame_walk.field f base true w
      have hversion := Window.version_of_frame hwalk
      have hfirst := hf base content w hportable hwf hw ha.1 hshows.1
      have hothers := ih base contents _ hportableRest (hversion ▸ hwfRest)
        (Window.limit_of_frame hwalk hw) ha.2 (hversion ▸ hshows.2)
      rw [fieldsToJson, Action.bind_of_ok hfirst, Action.bind_of_ok hothers]
      rfl

def Field.ExportsContent (J : Type) [JsonValues J] (f : Field) : Prop :=
  ∀ (base : Nat) (version : UInt16) (w w' : Window) (json : J), f.portable →
    f.wellFormed version → w.limit ≤ w.bytes.length →
    f.toJson base true w = (.ok json, w') → (f.walk base true w).1.legible →
    w' = (f.walk base true w).2 ∧
      ∃ content, f.admits content ∧ f.legible content ∧ json = f.jsonOf content

def ExportsContentFields (J : Type) [JsonValues J] (fields : List Field) : Prop :=
  ∀ (base : Nat) (version : UInt16) (w w' : Window) (members : List (String × J)),
    portableFields fields → wellFormedFields version fields → w.limit ≤ w.bytes.length →
    fieldsToJson base true fields w = (.ok members, w') →
    legibleReadings (walkFields base true fields w).1 →
    w' = (walkFields base true fields w).2 ∧
      ∃ contents, admitsFields fields contents ∧ legibleFields fields contents ∧
        members = membersOf fields contents

namespace Field

variable {f : Field}

theorem admits_of_value {t : TypeDef} (hk : f.kind = .type t) (hp : f.presence ≠ .constant)
    {v : Value} (ha : t.admits v) : f.admits (.value v) := by
  obtain ⟨name, id, offset, kind, presence, constant, since⟩ := f
  cases hk
  exact ⟨hp, ha⟩

theorem admits_of_constant {t : TypeDef} (hk : f.kind = .type t) (hp : f.presence = .constant) :
    f.admits .none := by
  obtain ⟨name, id, offset, kind, presence, constant, since⟩ := f
  cases hk
  exact hp

theorem admits_of_raw {e : EnumDef} (hk : f.kind = .enum e) (hp : f.presence ≠ .constant)
    {n : UInt64} (hn : n.toNat ≤ e.encoding.rawMax) : f.admits (.raw n) := by
  obtain ⟨name, id, offset, kind, presence, constant, since⟩ := f
  cases hk
  exact ⟨hp, hn⟩

theorem admits_of_bits {s : SetDef} (hk : f.kind = .set s) (hp : f.presence ≠ .constant)
    {set : BitSet} (he : set.encoding = s.encoding) : f.admits (.bits set) := by
  obtain ⟨name, id, offset, kind, presence, constant, since⟩ := f
  cases hk
  exact ⟨hp, he⟩

theorem admits_of_members {c : CompositeDef} (hk : f.kind = .composite c)
    (hp : f.presence ≠ .constant) {contents : List FieldContent}
    (ha : admitsFields c.fields contents) : f.admits (.members contents) := by
  obtain ⟨name, id, offset, kind, presence, constant, since⟩ := f
  cases hk
  exact ⟨hp, ha⟩

theorem admits_of_elements {g : GroupDef} (hk : f.kind = .group g)
    {contents : List (List FieldContent)}
    (hn : contents.length ≤ g.numInGroupMember.primitive.rawMax)
    (ha : ∀ content ∈ contents, admitsFields g.fields content) : f.admits (.elements contents) := by
  obtain ⟨name, id, offset, kind, presence, constant, since⟩ := f
  cases hk
  exact ⟨hn, ha⟩

theorem admits_of_payload {d : DataDef} (hk : f.kind = .data d) {bytes : Bytes}
    (ha : d.admits bytes) : f.admits (.payload bytes) := by
  obtain ⟨name, id, offset, kind, presence, constant, since⟩ := f
  cases hk
  exact ha

theorem legible_of_value {t : TypeDef} (hk : f.kind = .type t) {v : Value} {name : String}
    {present : Except Error Bool} (h : (Reading.type name present (.ok v)).legible) :
    f.legible (.value v) := by
  obtain ⟨_, id, offset, kind, presence, constant, since⟩ := f
  cases hk
  cases v with
  | text characters => exact h
  | _ => trivial

theorem legible_of_absent {t : TypeDef} (hk : f.kind = .type t) : f.legible (.value t.absent) := by
  obtain ⟨_, id, offset, kind, presence, constant, since⟩ := f
  cases hk
  unfold TypeDef.absent
  split
  · trivial
  · split
    · rfl
    · trivial

theorem legible_constant {t : TypeDef} (hk : f.kind = .type t) : f.legible .none := by
  obtain ⟨_, id, offset, kind, presence, constant, since⟩ := f
  cases hk
  trivial

theorem legible_raw {e : EnumDef} (hk : f.kind = .enum e) (n : UInt64) : f.legible (.raw n) := by
  obtain ⟨_, id, offset, kind, presence, constant, since⟩ := f
  cases hk
  trivial

theorem legible_bits {s : SetDef} (hk : f.kind = .set s) (set : BitSet) :
    f.legible (.bits set) := by
  obtain ⟨_, id, offset, kind, presence, constant, since⟩ := f
  cases hk
  trivial

theorem optional_of_absent (hsince : f.presence ≠ .optional → f.since = 0) {base : Nat}
    {w : Window} (h : (f.bindAt base true w.version).present w = .ok false) :
    f.presence = .optional := by
  apply Classical.byContradiction
  intro hp
  have hzero : f.since ≤ w.version := by
    rw [hsince hp]
    exact UInt16.zero_le
  rw [Binding.present_of_mandatory (visible_bindAt hzero base) hzero hp] at h
  cases h

theorem exportsContent_type (f : Field) (t : TypeDef) (hk : f.kind = .type t) :
    f.ExportsContent J := by
  intro base version w w' json hportable _ hw hexport hlegible
  obtain ⟨-, hsince, hn, hconstant⟩ := portable_type hk hportable
  rw [toJson_type hk] at hexport
  rw [walk_type hk] at hlegible ⊢
  obtain ⟨hresult, rfl⟩ := Prod.mk.inj hexport
  refine ⟨rfl, ?_⟩
  set b := f.bindAt base true w.version with hb
  obtain ⟨present, hpresent, hvalue⟩ := Action.except_bind_eq_ok hresult
  cases present with
  | true =>
    have hv := Binding.visible_of_present hpresent
    have hversion : f.since ≤ w.version := of_decide_eq_true hv
    by_cases hp : f.presence = .constant
    · obtain ⟨c, hc, -⟩ := hconstant hp
      rw [Binding.exportType_of_constant (J := J) hv hk hversion hp hc] at hresult
      cases hresult
      exact ⟨.none, admits_of_constant hk hp, legible_constant hk, rfl⟩
    · obtain ⟨v, hv', -⟩ := Action.except_bind_eq_ok hvalue
      have hword := extent_lt_of_portable hk hportable
      have ha := Binding.admits_of_value ⟨hv, hp⟩ hk hword hw hv'
      rw [Binding.exportType_of_value ⟨hv, hp⟩ hk hword hversion hn hw hv'] at hresult
      cases hresult
      rw [hv'] at hlegible
      exact ⟨.value v, admits_of_value hk hp ha, legible_of_value hk hlegible, rfl⟩
  | false =>
    have hp := optional_of_absent hsince hpresent
    have hstored : f.presence ≠ .constant := by
      rw [hp]
      decide
    obtain ⟨ha, habsent⟩ := TypeDef.admits_absent (hn hp)
    rw [Binding.exportType_of_absent hpresent] at hresult
    cases hresult
    refine ⟨.value t.absent, admits_of_value hk hstored ha, legible_of_absent hk, ?_⟩
    rw [jsonOf_type hk, if_pos ⟨hp, habsent⟩]

theorem exportsContent_enum (f : Field) (e : EnumDef) (hk : f.kind = .enum e) :
    f.ExportsContent J := by
  intro base version w w' json hportable hwf _ hexport _
  obtain ⟨-, hstored, hsince, hn⟩ := portable_enum hk hportable
  obtain ⟨-, hu⟩ := (wellFormed_enum hk).mp hwf
  rw [toJson_enum hk] at hexport
  rw [walk_enum hk]
  obtain ⟨hresult, rfl⟩ := Prod.mk.inj hexport
  refine ⟨rfl, ?_⟩
  obtain ⟨present, hpresent, hraw⟩ := Action.except_bind_eq_ok hresult
  cases present with
  | true =>
    have hv := Binding.visible_of_present hpresent
    have hversion : f.since ≤ w.version := of_decide_eq_true hv
    obtain ⟨symbol, hsymbol, -⟩ := Action.except_bind_eq_ok hraw
    rw [Binding.enumName?_eq hk] at hsymbol
    cases hraw : (f.bindAt base true w.version).enumRaw w with
    | error reason =>
      rw [hraw] at hsymbol
      cases hsymbol
    | ok n =>
      have hle := Binding.enumRaw_le_rawMax ⟨hv, hstored⟩ hk hu hraw
      rw [Binding.exportEnum_of_raw ⟨hv, hstored⟩ hk hversion hraw] at hresult
      cases hresult
      exact ⟨.raw n, admits_of_raw hk hstored hle, legible_raw hk n, rfl⟩
  | false =>
    have hp := optional_of_absent hsince hpresent
    rw [Binding.exportEnum_of_absent hpresent] at hresult
    cases hresult
    refine ⟨.raw e.null, admits_of_raw hk hstored (hn hp), legible_raw hk _, ?_⟩
    rw [jsonOf_enum hk, if_pos ⟨hp, rfl⟩]

theorem exportsContent_set (f : Field) (s : SetDef) (hk : f.kind = .set s) :
    f.ExportsContent J := by
  intro base version w w' json hportable _ _ hexport _
  obtain ⟨hstored, hnamed⟩ := (portable_set hk).mp hportable
  rw [toJson_set hk] at hexport
  rw [walk_set hk]
  obtain ⟨hresult, rfl⟩ := Prod.mk.inj hexport
  refine ⟨rfl, ?_⟩
  obtain ⟨choices, hchoices, -⟩ := Action.except_bind_eq_ok hresult
  rw [Binding.choices_eq hk] at hchoices
  cases hbits : (f.bindAt base true w.version).bits w with
  | error reason =>
    rw [hbits] at hchoices
    cases hchoices
  | ok set =>
    rw [Binding.exportSet_of_bits hk hnamed hbits] at hresult
    cases hresult
    exact ⟨.bits set, admits_of_bits hk hstored (Binding.encoding_of_bits hk hstored hbits),
      legible_bits hk set, rfl⟩

theorem exportsContent_composite (f : Field) (c : CompositeDef) (hk : f.kind = .composite c)
    (ih : ExportsContentFields J c.fields) : f.ExportsContent J := by
  intro base version w w' json hportable hwf hw hexport hlegible
  obtain ⟨hstored, hsince, -, hportable⟩ := (portable_composite hk).mp hportable
  obtain ⟨-, -, -, hwf⟩ := (wellFormed_composite hk).mp hwf
  have hv : (true && f.inVersion w.version) = true := by
    rw [inVersion, hsince, Bool.true_and]
    exact decide_eq_true UInt16.zero_le
  rw [toJson_composite hk, hv] at hexport
  rw [walk_composite hk, hv] at hlegible ⊢
  obtain ⟨members, v, hmembers, hexport⟩ := Action.bind_eq_ok hexport
  cases hexport
  obtain ⟨rfl, contents, ha, hl, rfl⟩ :=
    ih _ version w _ members hportable hwf hw hmembers hlegible
  exact ⟨rfl, .members contents, admits_of_members hk hstored ha,
    (legible_composite hk).mpr hl, (jsonOf_composite hk contents).symm⟩

end Field

theorem DataView.length_le_rawMax {d : DataView} {w : Window} {count : Nat}
    (hu : d.definition.lengthMember.primitive.isUnsigned) (h : d.length w = .ok count) :
    count ≤ d.definition.lengthMember.primitive.rawMax := by
  unfold length at h
  split at h
  · cases h
    exact Nat.zero_le _
  · obtain ⟨s, hs, h⟩ := Action.except_bind_eq_ok h
    cases h
    exact Window.readScalar_le_rawMax hu hs

theorem DataView.admits_of_value {d : DataView} {w w' : Window} {bytes : Bytes}
    (hd : d.definition.WellFormed) (hw : w.limit ≤ w.bytes.length)
    (h : d.value w = (.ok bytes, w')) : d.definition.admits bytes := by
  cases hv : d.visible with
  | false =>
    rw [value_of_invisible hv] at h
    cases h
    refine ⟨Nat.zero_mod _, ?_⟩
    rw [DataOf.elementCount, List.length_nil, Nat.zero_div]
    exact Nat.zero_le _
  | true =>
    cases hp : d.payload w with
    | error e =>
      rw [value_of_error hv hp] at h
      cases h
    | ok place =>
      obtain ⟨start, size⟩ := place
      obtain ⟨count, hcount, -, hsize, -, hle⟩ := payload_eq_ok hp
      obtain rfl := eq_slice_of_value hv hp h
      have hlength : (w.bytes.slice start size).length =
          count * d.definition.varDataMember.primitive.size := by
        rw [Bytes.length_slice (Nat.le_trans hle hw), hsize]
        rfl
      rw [DataOf.admits, DataOf.elementCount, hlength, Nat.mul_mod_left,
        Nat.mul_div_cancel _ (Primitive.size_pos _)]
      exact ⟨rfl, length_le_rawMax hd.length_unsigned hcount⟩

theorem Field.exportsContent_data (f : Field) (d : DataDef) (hk : f.kind = .data d) :
    f.ExportsContent J := by
  intro base version w w' json _ hwf hw hexport hlegible
  obtain ⟨-, hd⟩ := (wellFormed_data hk).mp hwf
  rw [toJson_data hk] at hexport
  rw [walk_data hk] at hlegible ⊢
  obtain ⟨bytes, v, hvalue, hexport⟩ := Action.bind_eq_ok hexport
  cases hexport
  rw [hvalue] at hlegible ⊢
  refine ⟨rfl, .payload bytes, admits_of_payload hk ?_, (legible_data hk).mpr hlegible,
    (jsonOf_data hk bytes).symm⟩
  exact DataView.admits_of_value (d := f.dataView d true w.version) hd hw hvalue

theorem collect_content {fields : List Field} (hportable : portableFields fields)
    {version : UInt16} (hwf : wellFormedFields version fields) (ih : ExportsContentFields J fields)
    (n : Nat) (it it' : Iteration) (members : List (List (String × J)))
    (hw : it.window.limit ≤ it.window.bytes.length)
    (hcollect : Iteration.collect (fun base => fieldsToJson base true fields) n it =
      (.ok members, it'))
    (hlegible : legibleElements
      (Walk.elements (fun base => walkFields base true fields) n it).1) :
    it' = (Walk.elements (fun base => walkFields base true fields) n it).2 ∧
      ∃ contents : List (List FieldContent), contents.length = n ∧
        (∀ content ∈ contents, admitsFields fields content) ∧
        (∀ content ∈ contents, legibleFields fields content) ∧
        members = contents.map (membersOf fields) := by
  induction n generalizing it it' members with
  | zero =>
    cases hcollect
    exact ⟨rfl, [], rfl, nofun, nofun, rfl⟩
  | succ n hrest =>
    obtain ⟨base, it₁, hnext, hcollect⟩ := Action.bind_eq_ok hcollect
    obtain ⟨first, it₂, hfirst, hcollect⟩ := Action.bind_eq_ok hcollect
    obtain ⟨others, it₃, hothers, hcollect⟩ := Action.bind_eq_ok hcollect
    cases hcollect
    have hw₁ := Window.limit_of_frame
      ((Iteration.keeps_window_next Window.keeps_advance).after hnext) hw
    rw [Walk.elements_of_ok hnext] at hlegible ⊢
    obtain ⟨hlegible, hlegibleRest⟩ := Bool.and_eq_true_iff.mp hlegible
    obtain ⟨hresult, hafter⟩ := Prod.mk.inj hfirst
    -- The export of an element leaves the window where the walk over its fields does.
    obtain ⟨hwindow, content, ha, hl, rfl⟩ :=
      ih base version it₁.window _ first hportable hwf hw₁ (Prod.ext hresult rfl) hlegible
    obtain rfl : it₂ = ⟨it₁.group, (walkFields base true fields it₁.window).2⟩ := by
      rw [← hwindow]
      exact hafter.symm
    have hwalk := frame_walk.table fields base true it₁.window
    obtain ⟨rfl, contents, rfl, haRest, hlRest, rfl⟩ :=
      hrest _ it' others (Window.limit_of_frame hwalk hw₁) hothers hlegibleRest
    refine ⟨rfl, content :: contents, rfl, ?_, ?_, rfl⟩
    · exact List.forall_mem_cons.mpr ⟨ha, haRest⟩
    · exact List.forall_mem_cons.mpr ⟨hl, hlRest⟩

theorem GroupView.count_le_rawMax {f : Field} {g : GroupDef} {visible : Bool} {w w' : Window}
    {view : GroupView} (hg : g.WellFormed) (h : bind f g visible w = (.ok view, w')) :
    view.count ≤ g.numInGroupMember.primitive.rawMax := by
  rcases bind_cases h with ⟨-, rfl, -⟩ | ⟨-, _, count, -, hread, rfl, -⟩
  · exact Nat.zero_le _
  · exact Window.readScalar_le_rawMax hg.numInGroup_unsigned hread

theorem Field.exportsContent_group (f : Field) (g : GroupDef) (hk : f.kind = .group g)
    (ih : ExportsContentFields J g.fields) : f.ExportsContent J := by
  intro base version w w' json hportable hwf hw hexport hlegible
  obtain ⟨-, hportable⟩ := (portable_group hk).mp hportable
  obtain ⟨-, hg, -, hwf⟩ := (wellFormed_group hk).mp hwf
  rw [toJson_group hk] at hexport
  obtain ⟨view, v, hbind, hexport⟩ := Action.bind_eq_ok hexport
  obtain ⟨elements, v', hcollect, hexport⟩ := Action.bind_eq_ok hexport
  cases hexport
  obtain ⟨hresult, rfl⟩ := Prod.mk.inj hcollect
  have hframe := (GroupView.keeps_bind Window.keeps_advance f g _).after hbind
  have hcount := GroupView.count_le_rawMax hg hbind
  rw [walk_group_of_ok hk hbind] at hlegible ⊢
  obtain ⟨hwindow, contents, hlength, ha, hl, rfl⟩ := collect_content hportable hwf ih view.count
    ⟨view, v⟩ _ elements (Window.limit_of_frame hframe hw) (Prod.ext hresult rfl) hlegible
  refine ⟨congrArg Iteration.window hwindow, .elements contents, ?_, (legible_group hk).mpr hl, ?_⟩
  · exact admits_of_elements hk (hlength ▸ hcount) ha
  · rw [jsonOf_group hk, List.map_map]
    rfl

theorem exportsContent : TableInduction (Field.ExportsContent J) (ExportsContentFields J) where
  type := Field.exportsContent_type
  enum := Field.exportsContent_enum
  set := Field.exportsContent_set
  composite := Field.exportsContent_composite
  group := Field.exportsContent_group
  data := Field.exportsContent_data
  nil := by
    intro base version w w' members _ _ _ hexport _
    cases hexport
    exact ⟨rfl, [], trivial, trivial, rfl⟩
  cons f rest hf ih := by
    intro base version w w' members hportable hwf hw hexport hlegible
    obtain ⟨hportable, hportableRest⟩ := portableFields_cons.mp hportable
    obtain ⟨hwf, hwfRest⟩ := wellFormedFields_cons.mp hwf
    obtain ⟨json, w₁, hfirst, hexport⟩ := Action.bind_eq_ok hexport
    obtain ⟨others, w₂, hothers, hexport⟩ := Action.bind_eq_ok hexport
    cases hexport
    rw [walkFields_cons] at hlegible ⊢
    obtain ⟨hlegible, hlegibleRest⟩ := Bool.and_eq_true_iff.mp hlegible
    obtain ⟨rfl, content, ha, hl, rfl⟩ := hf base version w w₁ json hportable hwf hw hfirst hlegible
    have hwalk := frame_walk.field f base true w
    obtain ⟨rfl, contents, haRest, hlRest, rfl⟩ := ih base version _ w' others hportableRest hwfRest
      (Window.limit_of_frame hwalk hw) hothers hlegibleRest
    exact ⟨rfl, content :: contents, ⟨ha, haRest⟩, ⟨hl, hlRest⟩, rfl⟩

end SimpleBinary
