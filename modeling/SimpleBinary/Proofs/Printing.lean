import SimpleBinary.Report
import SimpleBinary.Proofs.JsonWalk

namespace SimpleBinary

namespace Report

def indented (depth : Nat) (text : String) : String :=
  String.ofList (List.replicate (2 * depth) ' ') ++ text

def symbol (e : EnumDef) (n : UInt64) : String :=
  match e.nameOf? n with
  | some name => name
  | none => "<raw " ++ natural n.toNat ++ ">"

def flags (s : SetDef) (set : BitSet) : String :=
  let chosen := s.choices.filter fun choice => set.contains choice.bit
  ", ".intercalate (chosen.map Choice.name)

def elementLines {α : Type} (depth : Nat) (lines : α → List String) : Nat → List α → List String
  | _, [] => []
  | index, element :: rest =>
    indented (depth + 1) ("#" ++ natural (index + 1)) ::
      (lines element ++ elementLines depth lines (index + 1) rest)

end Report

mutual

def Field.linesOf (depth : Nat) : Field → FieldContent → List String
  | ⟨name, _, _, .type t, presence, _, _⟩, .value v =>
    [Report.indented depth (name ++ ": " ++
      if presence = .optional ∧ t.isAbsent v then "<null>" else Report.value v)]
  | ⟨name, _, _, .type _, _, some c, _⟩, .none =>
    [Report.indented depth (name ++ ": " ++ Report.value c.toValue)]
  | ⟨name, _, _, .enum e, _, _, _⟩, .raw n =>
    [Report.indented depth (name ++ ": " ++ Report.symbol e n)]
  | ⟨name, _, _, .set s, _, _, _⟩, .bits set =>
    [Report.indented depth (name ++ ": \x7b" ++ Report.flags s set ++ "\x7d")]
  | ⟨name, _, _, .composite c, _, _, _⟩, .members contents =>
    Report.indented depth (name ++ ":") :: linesOfFields (depth + 1) c.fields contents
  | ⟨name, _, _, .group g, _, _, _⟩, .elements contents =>
    Report.indented depth (name ++ " [" ++ Report.natural contents.length ++ "]:") ::
      Report.elementLines depth (fun element => linesOfFields (depth + 2) g.fields element) 0
        contents
  | ⟨name, _, _, .data _, _, _, _⟩, .payload bytes =>
    [Report.indented depth (name ++ ": " ++ Text.quoted (Utf8.decodeLossy bytes))]
  | _, _ => []

def linesOfFields (depth : Nat) : List Field → List FieldContent → List String
  | f :: rest, content :: contents => f.linesOf depth content ++ linesOfFields depth rest contents
  | _, _ => []

end

namespace Report

def printed (r : Report) (w : Window) (lines : List String) : Report :=
  ⟨w, lines.reverse ++ r.lines⟩

theorem printed_printed (r : Report) (w w' : Window) (lines lines' : List String) :
    (r.printed w lines).printed w' lines' = r.printed w' (lines ++ lines') := by
  rw [printed, printed, printed, List.reverse_append, List.append_assoc]

theorem line_apply (depth : Nat) (text : String) (r : Report) :
    line depth text r = (.ok ⟨⟩, r.printed r.window [indented depth text]) := rfl

theorem onWindow_apply {α : Type} (action : Action Window α) (r : Report) :
    onWindow action r = ((action r.window).1, r.printed (action r.window).2 []) := rfl

theorem text_printed (w w' : Window) (lines : List String) :
    (printed ⟨w, []⟩ w' lines).text = String.join (lines.map (· ++ "\n")) := by
  rw [text, printed, List.append_nil, List.reverse_reverse]

theorem type_of_value {depth : Nat} {b : Binding} {r : Report} {v : Value} {present : Bool}
    (hp : b.present r.window = .ok present) (hv : b.value r.window = .ok v) :
    type depth b r = (.ok ⟨⟩, r.printed r.window
      [indented depth (b.field.name ++ ": " ++ if present then value v else "<null>")]) := by
  simp only [type, Action.bind_apply, Action.get_apply, Action.lift_apply, hp, hv, line_apply]

theorem enum_of_raw {depth : Nat} {b : Binding} {e : EnumDef} {r : Report} {n : UInt64}
    (hk : b.field.kind = .enum e) (hn : b.enumRaw r.window = .ok n) :
    enum depth b r = (.ok ⟨⟩, r.printed r.window
      [indented depth (b.field.name ++ ": " ++ symbol e n)]) := by
  simp only [enum, Action.bind_apply, Action.get_apply, Action.lift_apply,
    Binding.enumName?_of_enumRaw hk hn, symbol]
  cases e.nameOf? n with
  | some name => rfl
  | none =>
    dsimp only
    rw [Action.bind_apply, Action.lift_apply, hn]
    rfl

theorem set_of_bits {depth : Nat} {b : Binding} {s : SetDef} {r : Report} {bits : BitSet}
    (hk : b.field.kind = .set s) (hs : s.Named) (hb : b.bits r.window = .ok bits) :
    set depth b r = (.ok ⟨⟩, r.printed r.window
      [indented depth (b.field.name ++ ": \x7b" ++ flags s bits ++ "\x7d")]) := by
  have hknown : (s.choices.filter fun choice => choice.since ≤ r.window.version) = s.choices := by
    apply List.filter_eq_self.mpr
    intro choice hchoice
    rw [(hs.found choice hchoice).1]
    exact decide_eq_true UInt16.zero_le
  simp only [set, Action.bind_apply, Action.get_apply, Action.lift_apply,
    Binding.choices_of_bits hk hb, hknown, line_apply, flags, List.filter_map, List.map_map]
  rfl

end Report

namespace Field

variable {f : Field} {depth base : Nat} {enclosed : Bool} {r : Report}

theorem report_type {t : TypeDef} (hk : f.kind = .type t) :
    f.report depth base enclosed r =
      Report.type depth (f.bindAt base enclosed r.window.version) r := by
  obtain ⟨name, id, offset, kind, presence, constant, since⟩ := f
  cases hk
  rfl

theorem report_enum {e : EnumDef} (hk : f.kind = .enum e) :
    f.report depth base enclosed r =
      Report.enum depth (f.bindAt base enclosed r.window.version) r := by
  obtain ⟨name, id, offset, kind, presence, constant, since⟩ := f
  cases hk
  rfl

theorem report_set {s : SetDef} (hk : f.kind = .set s) :
    f.report depth base enclosed r =
      Report.set depth (f.bindAt base enclosed r.window.version) r := by
  obtain ⟨name, id, offset, kind, presence, constant, since⟩ := f
  cases hk
  rfl

theorem report_composite {c : CompositeDef} (hk : f.kind = .composite c) :
    f.report depth base enclosed r =
      reportFields (depth + 1) (wordOf (base + f.offset))
        (enclosed && f.inVersion r.window.version) c.fields
        (r.printed r.window [Report.indented depth (f.name ++ ":")]) := by
  obtain ⟨name, id, offset, kind, presence, constant, since⟩ := f
  cases hk
  rfl

theorem report_group {g : GroupDef} (hk : f.kind = .group g) {view : GroupView} {v : Window}
    (hb : GroupView.bind f g (enclosed && f.inVersion r.window.version) r.window = (.ok view, v)) :
    f.report depth base enclosed r =
      Report.elements depth (fun base => reportFields (depth + 2) base true g.fields) view.count
        view (r.printed v
          [Report.indented depth (f.name ++ " [" ++ Report.natural view.count ++ "]:")]) := by
  obtain ⟨name, id, offset, kind, presence, constant, since⟩ := f
  cases hk
  simp only [Field.report, Action.bind_apply, Action.get_apply, Report.onWindow_apply, bindAt, hb,
    Report.line_apply]
  rfl

theorem report_data {d : DataDef} (hk : f.kind = .data d) {bytes : Bytes} {v : Window}
    (hv : (f.dataView d enclosed r.window.version).value r.window = (.ok bytes, v)) :
    f.report depth base enclosed r =
      (.ok ⟨⟩, r.printed v
        [Report.indented depth (f.name ++ ": " ++ Text.quoted (Utf8.decodeLossy bytes))]) := by
  obtain ⟨name, id, offset, kind, presence, constant, since⟩ := f
  cases hk
  simp only [dataView] at hv
  simp only [Field.report, Action.bind_apply, Action.get_apply, Report.onWindow_apply, bindAt, hv,
    Report.line_apply]
  rfl

section

variable {t : TypeDef} (hk : f.kind = .type t)
include hk

theorem linesOf_type (v : Value) :
    f.linesOf depth (.value v) = [Report.indented depth (f.name ++ ": " ++
      if f.presence = .optional ∧ t.isAbsent v then "<null>" else Report.value v)] := by
  obtain ⟨name, id, offset, kind, presence, constant, since⟩ := f
  cases hk
  rfl

theorem linesOf_constant {c : Constant} (hc : f.constant = some c) :
    f.linesOf depth .none =
      [Report.indented depth (f.name ++ ": " ++ Report.value c.toValue)] := by
  obtain ⟨name, id, offset, kind, presence, constant, since⟩ := f
  cases hk
  cases hc
  rfl

end

theorem linesOf_enum {e : EnumDef} (hk : f.kind = .enum e) (n : UInt64) :
    f.linesOf depth (.raw n) =
      [Report.indented depth (f.name ++ ": " ++ Report.symbol e n)] := by
  obtain ⟨name, id, offset, kind, presence, constant, since⟩ := f
  cases hk
  rfl

theorem linesOf_set {s : SetDef} (hk : f.kind = .set s) (set : BitSet) :
    f.linesOf depth (.bits set) =
      [Report.indented depth (f.name ++ ": \x7b" ++ Report.flags s set ++ "\x7d")] := by
  obtain ⟨name, id, offset, kind, presence, constant, since⟩ := f
  cases hk
  rfl

theorem linesOf_composite {c : CompositeDef} (hk : f.kind = .composite c)
    (contents : List FieldContent) :
    f.linesOf depth (.members contents) =
      Report.indented depth (f.name ++ ":") :: linesOfFields (depth + 1) c.fields contents := by
  obtain ⟨name, id, offset, kind, presence, constant, since⟩ := f
  cases hk
  rfl

theorem linesOf_group {g : GroupDef} (hk : f.kind = .group g)
    (contents : List (List FieldContent)) :
    f.linesOf depth (.elements contents) =
      Report.indented depth (f.name ++ " [" ++ Report.natural contents.length ++ "]:") ::
        Report.elementLines depth (linesOfFields (depth + 2) g.fields) 0 contents := by
  obtain ⟨name, id, offset, kind, presence, constant, since⟩ := f
  cases hk
  rfl

theorem linesOf_data {d : DataDef} (hk : f.kind = .data d) (bytes : Bytes) :
    f.linesOf depth (.payload bytes) =
      [Report.indented depth (f.name ++ ": " ++ Text.quoted (Utf8.decodeLossy bytes))] := by
  obtain ⟨name, id, offset, kind, presence, constant, since⟩ := f
  cases hk
  rfl

def PrintsShown (f : Field) : Prop :=
  ∀ (depth base : Nat) (content : FieldContent) (r : Report), f.portable →
    f.wellFormed r.window.version → r.window.limit ≤ r.window.bytes.length → f.admits content →
    f.shows r.window.version content (f.walk base true r.window).1 →
    f.report depth base true r =
      (.ok ⟨⟩, r.printed (f.walk base true r.window).2 (f.linesOf depth content))

end Field

def PrintsShownFields (fields : List Field) : Prop :=
  ∀ (depth base : Nat) (contents : List FieldContent) (r : Report), portableFields fields →
    wellFormedFields r.window.version fields → r.window.limit ≤ r.window.bytes.length →
    admitsFields fields contents →
    showsFields r.window.version fields contents (walkFields base true fields r.window).1 →
    reportFields depth base true fields r =
      (.ok ⟨⟩, r.printed (walkFields base true fields r.window).2
        (linesOfFields depth fields contents))

namespace Field

theorem printsShown_type (f : Field) (t : TypeDef) (hk : f.kind = .type t) : f.PrintsShown := by
  intro depth base content r hportable hwf hw ha hshows
  obtain ⟨-, -, hn, hconstant⟩ := portable_type hk hportable
  have hsince := (wellFormed_type hk).mp hwf
  have hv := visible_bindAt hsince base
  rw [walk_type hk] at hshows ⊢
  rw [report_type hk]
  rcases admits_type hk ha with ⟨rfl, hp⟩ | ⟨v, rfl, hp, -⟩
  · obtain ⟨c, hc, -⟩ := hconstant hp
    have hmandatory : f.presence ≠ .optional := by
      rw [hp]
      decide
    rw [linesOf_constant hk hc, Report.type_of_value
      (Binding.present_of_mandatory hv hsince hmandatory) (Binding.value_of_constant hk hp hc)]
    rfl
  · have hvalue := shows_value hk hshows
    have hpresent := Binding.present_of_value ⟨hv, hp⟩ hk
      (extent_lt_of_portable hk hportable) hsince hn hw hvalue
    rw [linesOf_type hk, Report.type_of_value hpresent hvalue]
    by_cases habsent : f.presence = .optional ∧ t.isAbsent v <;> simp [bindAt, habsent]

theorem printsShown_enum (f : Field) (e : EnumDef) (hk : f.kind = .enum e) : f.PrintsShown := by
  intro depth base content r hportable _ _ ha hshows
  obtain ⟨-, hstored, -, -⟩ := portable_enum hk hportable
  rw [walk_enum hk] at hshows ⊢
  rw [report_enum hk]
  rcases admits_enum hk ha with ⟨-, hp⟩ | ⟨n, rfl, -, -⟩
  · exact absurd hp hstored
  · rw [linesOf_enum hk]
    exact Report.enum_of_raw hk (shows_raw hk hshows)

theorem printsShown_set (f : Field) (s : SetDef) (hk : f.kind = .set s) : f.PrintsShown := by
  intro depth base content r hportable _ _ ha hshows
  obtain ⟨hstored, hnamed⟩ := (portable_set hk).mp hportable
  rw [walk_set hk] at hshows ⊢
  rw [report_set hk]
  rcases admits_set hk ha with ⟨-, hp⟩ | ⟨set, rfl, -, -⟩
  · exact absurd hp hstored
  · rw [linesOf_set hk]
    exact Report.set_of_bits hk hnamed (shows_bits hk hshows)

theorem printsShown_composite (f : Field) (c : CompositeDef) (hk : f.kind = .composite c)
    (ih : PrintsShownFields c.fields) : f.PrintsShown := by
  intro depth base content r hportable hwf hw ha hshows
  obtain ⟨hstored, -, -, hportable⟩ := (portable_composite hk).mp hportable
  obtain ⟨hsince, -, -, hwf⟩ := (wellFormed_composite hk).mp hwf
  have hv : (true && f.inVersion r.window.version) = true := decide_eq_true hsince
  rcases admits_composite hk ha with ⟨-, hp⟩ | ⟨contents, rfl, -, ha⟩
  · exact absurd hp hstored
  · rw [walk_composite hk, hv] at hshows ⊢
    rw [report_composite hk, hv, linesOf_composite hk]
    have hmembers := ih (depth + 1) (wordOf (base + f.offset)) contents
      (r.printed r.window [Report.indented depth (f.name ++ ":")]) hportable hwf hw ha
      (shows_members hk hshows)
    rw [hmembers, Report.printed_printed]
    rfl

theorem printsShown_data (f : Field) (d : DataDef) (hk : f.kind = .data d) : f.PrintsShown := by
  intro depth base content r _ _ _ ha hshows
  obtain ⟨bytes, rfl, -⟩ := admits_data hk ha
  rw [walk_data hk] at hshows ⊢
  have hvalue : (f.dataView d true r.window.version).value r.window =
      (.ok bytes, ((f.dataView d true r.window.version).value r.window).2) :=
    Prod.ext (shows_payload hk hshows).2 rfl
  rw [report_data hk hvalue, linesOf_data hk]

end Field

theorem Report.elements_of_ok {depth n base : Nat} {print : Nat → Action Report Unit}
    {g : GroupView} {r : Report} {it : Iteration}
    (h : Iteration.next ⟨g, r.window⟩ = (.ok base, it)) :
    elements depth print (n + 1) g r =
      (do
        print base
        elements depth print n it.group)
      (r.printed it.window [indented (depth + 1) ("#" ++ natural (g.index + 1))]) := by
  have hvisited : onWindow (Iteration.visited g) r = (.ok it.group, r.printed it.window []) := by
    rw [onWindow_apply]
    simp only [Iteration.visited, Iteration.run, Action.bind_apply, Action.discard_apply, h,
      Except.map, Action.get_apply, Action.pure_apply]
  obtain ⟨-, rfl⟩ := Iteration.next_eq_ok h
  rw [elements, Action.bind_of_ok hvisited]
  rfl

theorem elements_printed {g : GroupDef} {version : UInt16} (hportable : portableFields g.fields)
    (hwf : wellFormedFields version g.fields) (ih : PrintsShownFields g.fields) (depth : Nat)
    (contents : List (List FieldContent)) (ha : ∀ content ∈ contents, admitsFields g.fields content)
    (view : GroupView) (r : Report) (hversion : r.window.version = version)
    (hw : r.window.limit ≤ r.window.bytes.length)
    (hshows : g.ShowsElements version contents
      (Walk.elements (fun base => walkFields base true g.fields) contents.length
        ⟨view, r.window⟩).1) :
    Report.elements depth (fun base => reportFields (depth + 2) base true g.fields) contents.length
        view r =
      (.ok ⟨⟩, r.printed (Walk.elements (fun base => walkFields base true g.fields)
        contents.length ⟨view, r.window⟩).2.window
        (Report.elementLines depth (linesOfFields (depth + 2) g.fields) view.index contents)) := by
  induction contents generalizing view r with
  | nil => rfl
  | cons content rest hrest =>
    rw [List.length_cons] at hshows ⊢
    obtain ⟨base, it, hnext, hfields, hothers, hafter⟩ := hshows.visited
    have hframe := (Iteration.keeps_window_next Window.keeps_advance).after hnext
    have hversion' := (Window.version_of_frame hframe).trans hversion
    have hw' := Window.limit_of_frame hframe hw
    have hwalk := frame_walk.table g.fields base true it.window
    have hindex : it.group.index = view.index + 1 := by
      obtain ⟨-, rfl⟩ := Iteration.next_eq_ok hnext
      rfl
    set r₁ := r.printed it.window
      [Report.indented (depth + 1) ("#" ++ Report.natural (view.index + 1))]
    have hfirst := ih (depth + 2) base content r₁ hportable (hversion' ▸ hwf) hw'
      (ha content List.mem_cons_self) (hversion' ▸ hfields)
    have hothers := hrest (fun other hother => ha other (List.mem_cons_of_mem content hother))
      it.group (r₁.printed (walkFields base true g.fields r₁.window).2
        (linesOfFields (depth + 2) g.fields content))
      ((Window.version_of_frame hwalk).trans hversion') (Window.limit_of_frame hwalk hw') hothers
    rw [Report.elements_of_ok hnext, Action.bind_of_ok hfirst, hothers, hafter,
      Report.printed_printed, Report.printed_printed, hindex]
    rfl

theorem Field.printsShown_group (f : Field) (g : GroupDef) (hk : f.kind = .group g)
    (ih : PrintsShownFields g.fields) : f.PrintsShown := by
  intro depth base content r hportable hwf hw ha hshows
  obtain ⟨-, hportable⟩ := (portable_group hk).mp hportable
  obtain ⟨-, -, -, hwf⟩ := (wellFormed_group hk).mp hwf
  obtain ⟨contents, rfl, -, ha⟩ := admits_group hk ha
  obtain ⟨view, v, hbind, hframe, hcount, -, helements, hafter⟩ := bound_of_shown hk hshows
  obtain ⟨hindex, -⟩ := GroupView.bind_eq_ok hbind
  have hprinted := elements_printed hportable hwf ih depth contents ha view
    (r.printed v [Report.indented depth
      (f.name ++ " [" ++ Report.natural contents.length ++ "]:")])
    (Window.version_of_frame hframe) (Window.limit_of_frame hframe hw) helements
  rw [report_group hk hbind, hcount, linesOf_group hk, hprinted, hindex, Report.printed_printed,
    hafter]
  rfl

theorem printsShown : TableInduction Field.PrintsShown PrintsShownFields where
  type := Field.printsShown_type
  enum := Field.printsShown_enum
  set := Field.printsShown_set
  composite := Field.printsShown_composite
  group := Field.printsShown_group
  data := Field.printsShown_data
  nil := by
    intro depth base contents r _ _ _ ha _
    cases contents with
    | nil => rfl
    | cons content contents => cases ha
  cons f rest hf ih := by
    intro depth base contents r hportable hwf hw ha hshows
    cases contents with
    | nil => cases ha
    | cons content contents =>
      obtain ⟨hportable, hportableRest⟩ := portableFields_cons.mp hportable
      obtain ⟨hwf, hwfRest⟩ := wellFormedFields_cons.mp hwf
      rw [walkFields_cons] at hshows ⊢
      have hwalk := frame_walk.field f base true r.window
      have hversion := Window.version_of_frame hwalk
      have hfirst := hf depth base content r hportable hwf hw ha.1 hshows.1
      have hothers := ih depth base contents
        (r.printed (f.walk base true r.window).2 (f.linesOf depth content)) hportableRest
        (hversion ▸ hwfRest) (Window.limit_of_frame hwalk hw) ha.2 (hversion ▸ hshows.2)
      rw [reportFields, Action.bind_of_ok hfirst, hothers, Report.printed_printed]
      rfl

def MessageDef.textOf (d : MessageDef) (version : UInt16) (blockLength : Nat)
    (contents : List FieldContent) : String :=
  let title := Report.indented 0 (d.name ++ " (template " ++ Report.natural d.id.toNat ++
    ", version " ++ Report.natural version.toNat ++ ", block " ++ Report.natural blockLength ++ ")")
  String.join ((title :: linesOfFields 1 d.fields contents).map (· ++ "\n"))

theorem Message.report_of_shown {m : Message} (hportable : m.definition.portable)
    (hwf : wellFormedFields m.version m.definition.fields)
    (hw : m.window.limit ≤ m.window.bytes.length) {contents : List FieldContent}
    (ha : admitsFields m.definition.fields contents)
    (hshows : showsFields m.version m.definition.fields contents (m.body.walk m.window).1) :
    m.report = ({ m with window := (m.body.walk m.window).2 },
      m.definition.textOf m.version m.blockLength contents, .ok ⟨⟩) := by
  obtain ⟨-, hportable⟩ := MessageDef.portable_iff.mp hportable
  have hprinted := printsShown.table m.definition.fields 1 m.offset contents
    (Report.printed ⟨m.window, []⟩ m.window [Report.indented 0 (m.definition.name ++
      " (template " ++ Report.natural m.definition.id.toNat ++ ", version " ++
      Report.natural m.version.toNat ++ ", block " ++ Report.natural m.blockLength ++ ")")])
    hportable hwf hw ha hshows
  rw [Report.printed_printed] at hprinted
  simp only [report, Action.bind_apply, Report.line_apply, hprinted, Report.text_printed]
  rfl

end SimpleBinary
