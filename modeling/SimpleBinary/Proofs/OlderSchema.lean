import SimpleBinary.Market.Schema
import SimpleBinary.Proofs.Absence
import SimpleBinary.Proofs.Alike
import SimpleBinary.Proofs.Frame
import SimpleBinary.Proofs.Regular
import SimpleBinary.Proofs.Trail

/-!
The schema of an older version: the tables of a message and of its groups without the fields that
are newer. Reading a message in that version is reading it with that schema, where the newer fields
are absent and take no bytes.
-/

namespace SimpleBinary

mutual

def Field.atVersion (version : UInt16) : Field → Field
  | ⟨name, id, offset, .group g, presence, constant, since⟩ =>
    ⟨name, id, offset, .group { g with fields := fieldsAtVersion version g.fields }, presence,
      constant, since⟩
  | f => f

def fieldsAtVersion (version : UInt16) : List Field → List Field
  | [] => []
  | f :: rest =>
    if f.inVersion version then f.atVersion version :: fieldsAtVersion version rest
    else fieldsAtVersion version rest

end

def GroupOf.atVersion (version : UInt16) (g : GroupDef) : GroupDef :=
  { g with fields := fieldsAtVersion version g.fields }

def GroupView.atVersion (version : UInt16) (g : GroupView) : GroupView :=
  { g with field := g.field.atVersion version, definition := g.definition.atVersion version }

def Iteration.atVersion (version : UInt16) (it : Iteration) : Iteration :=
  { it with group := it.group.atVersion version }

def MessageDef.atVersion (version : UInt16) (m : MessageDef) : MessageDef :=
  { m with fields := fieldsAtVersion version m.fields }

def Message.atVersion (version : UInt16) (m : Message) : Message :=
  { m with definition := m.definition.atVersion version }

namespace Sight

def inVersion (version : UInt16) (s : Sight) : Bool :=
  s.field.all (·.inVersion version)

def atVersion (version : UInt16) (s : Sight) : Sight :=
  { s with field := s.field.map (·.atVersion version) }

def Absent (version : UInt16) (s : Sight) : Prop :=
  (∃ f, s.field = some f ∧ (f.absentReading version).parts = [s.part]) ∧ s.stop = s.start

end Sight

variable {version : UInt16}

namespace Field

variable {f : Field}

theorem atVersion_group {g : GroupDef} (hk : f.kind = .group g) :
    f.atVersion version = { f with kind := .group (g.atVersion version) } := by
  obtain ⟨name, id, offset, kind, presence, constant, since⟩ := f
  cases hk
  rfl

theorem atVersion_of_not_group (h : ∀ g, f.kind ≠ .group g) : f.atVersion version = f := by
  obtain ⟨name, id, offset, kind, presence, constant, since⟩ := f
  cases kind with
  | group g => exact absurd rfl (h g)
  | _ => rfl

theorem name_atVersion (version : UInt16) (f : Field) : (f.atVersion version).name = f.name := by
  obtain ⟨name, id, offset, kind, presence, constant, since⟩ := f
  cases kind <;> rfl

theorem inVersion_atVersion (version : UInt16) (f : Field) :
    (f.atVersion version).inVersion = f.inVersion := by
  obtain ⟨name, id, offset, kind, presence, constant, since⟩ := f
  cases kind <;> rfl

end Field

theorem fieldsAtVersion_of_visible {f : Field} (rest : List Field) (h : f.inVersion version) :
    fieldsAtVersion version (f :: rest) =
      f.atVersion version :: fieldsAtVersion version rest :=
  if_pos h

theorem fieldsAtVersion_of_invisible {f : Field} (rest : List Field)
    (h : f.inVersion version = false) :
    fieldsAtVersion version (f :: rest) = fieldsAtVersion version rest :=
  if_neg (by rw [h]; exact Bool.false_ne_true)

theorem GroupView.bind_atVersion (version : UInt16) (f : Field) (g : GroupDef) (visible : Bool) :
    bind (f.atVersion version) (g.atVersion version) visible =
      GroupView.atVersion version <$> bind f g visible := by
  funext w
  rw [Action.map_apply]
  cases visible with
  | false => rfl
  | true =>
    by_cases hle : w.position + g.dimension.encodedLength ≤ w.limit
    · simp only [bind, GroupOf.atVersion, Action.bind_apply, Action.get_apply, Bool.not_true,
        Bool.false_eq_true, if_false, Action.discard_apply, Action.lift_apply,
        Window.check_of_le hle, Except.map]
      cases w.readScalar (wordOf (w.position + g.blockLengthMember.offset))
        g.blockLengthMember.primitive with
      | error reason => rfl
      | ok blockLength =>
        cases w.readScalar (wordOf (w.position + g.numInGroupMember.offset))
          g.numInGroupMember.primitive with
        | error reason => rfl
        | ok count =>
          simp only [Window.advance_of_le hle]
          rfl
    · have hlt := Nat.lt_of_not_le hle
      rw [bind_of_lt hlt f]
      exact bind_of_lt (g := g.atVersion version) hlt _

theorem Iteration.next_atVersion (version : UInt16) (it : Iteration) :
    next (it.atVersion version) = ((next it).1, (next it).2.atVersion version) := by
  obtain ⟨g, w⟩ := it
  by_cases hi : g.index < g.count
  · by_cases hle : w.position + g.blockLength ≤ w.limit
    · rw [next_of_le hi hle]
      exact next_of_le (g := g.atVersion version) hi hle
    · have hlt := Nat.lt_of_not_le hle
      rw [next_of_lt hi hlt]
      exact next_of_lt (g := g.atVersion version) hi hlt
  · have hdone := Nat.le_of_not_lt hi
    have hname : (g.atVersion version).name = g.name := Field.name_atVersion version g.field
    rw [next_of_done hdone, ← hname]
    exact next_of_done (g := g.atVersion version) hdone

def Window.SameAt (version : UInt16) (w w' : Window) : Prop :=
  w' = w ∧ w.version = version

theorem Window.sameAt_of_keeps {α : Type} {x : Action Window α} (h : Keeps frame x) {w : Window}
    (hw : w.version = version) : Alike (SameAt version) x x w w :=
  ⟨rfl, rfl, (version_of_frame (h w)).trans hw⟩

def Iteration.NarrowedAt (version : UInt16) (it it' : Iteration) : Prop :=
  it' = it.atVersion version ∧ it.window.version = version

namespace Iteration

theorem version_next {it it' : Iteration} {result : Except Error Nat}
    (h : next it = (result, it')) : it'.window.version = it.window.version :=
  Window.version_of_frame (congrArg window (keeps_next.after h))

theorem narrowedAt_next {it it' : Iteration} (h : NarrowedAt version it it') :
    Alike (NarrowedAt version) next next it it' := by
  obtain ⟨rfl, hw⟩ := h
  refine ⟨?_, ?_, (version_next Prod.mk.eta.symm).trans hw⟩
  · rw [next_atVersion]
  · rw [next_atVersion]

theorem narrowedAt_onWindow {action action' : Action Window Unit} {it it' : Iteration}
    (h : NarrowedAt version it it')
    (ha : ∀ w, w.version = version → Alike (Window.SameAt version) action action' w w) :
    Alike (NarrowedAt version) (onWindow action) (onWindow action') it it' := by
  obtain ⟨rfl, hw⟩ := h
  have hpart : Alike (Window.SameAt version) action action' it.window
      (it.atVersion version).window := ha it.window hw
  apply Alike.onPart hpart
  rintro w w' ⟨rfl, hw⟩
  exact ⟨rfl, hw⟩

theorem narrowedAt_repeatNext {visit visit' : Action Window Unit}
    (hv : ∀ w, w.version = version → Alike (Window.SameAt version) visit visit' w w) (n : Nat) :
    ∀ it it', NarrowedAt version it it' →
      Alike (NarrowedAt version) (repeatNext (fun _ => visit) n) (repeatNext (fun _ => visit') n)
        it it' := by
  induction n with
  | zero => exact fun _ _ h => .pure h _
  | succ n ih =>
    intro it it' h
    apply Alike.bind (narrowedAt_next h)
    intro base t t' ht
    exact .bind (narrowedAt_onWindow ht hv) fun _ t t' ht => ih t t' ht

theorem sameAt_run {visit visit' : Action Window Unit}
    (hv : ∀ w, w.version = version → Alike (Window.SameAt version) visit visit' w w)
    (g : GroupView) {w : Window} (hw : w.version = version) :
    Alike (Window.SameAt version) (run g (forRemaining fun _ => visit))
      (run (g.atVersion version) (forRemaining fun _ => visit')) w w := by
  obtain ⟨hresult, hsame, hversion⟩ :=
    narrowedAt_repeatNext hv g.remaining ⟨g, w⟩ (atVersion version ⟨g, w⟩) ⟨rfl, hw⟩
  exact ⟨hresult, (congrArg window hsame :), hversion⟩

end Iteration

theorem Field.skip_of_invisible {f : Field} {w : Window} (hv : f.inVersion w.version = false) :
    f.skip w = (.ok (), w) := by
  cases hk : f.kind with
  | group g =>
    simp only [skip_group hk, Action.bind_apply, Action.get_apply, hv, GroupView.bind_invisible]
    rfl
  | data d =>
    simp only [skip_data hk, Action.bind_apply, Action.get_apply, hv, DataView.skip]
    rfl
  | _ =>
    rw [skip_of_fixed (by simp [hk]) (by simp [hk])]
    rfl

theorem skip_atVersion :
    TableInduction
      (fun f => f.inVersion version → ∀ w, w.version = version →
        Alike (Window.SameAt version) f.skip (f.atVersion version).skip w w)
      (fun fields => ∀ w, w.version = version →
        Alike (Window.SameAt version) (skipFields fields)
          (skipFields (fieldsAtVersion version fields)) w w) := by
  apply TableInduction.of_fixed
  · intro f h _ _ w hw
    rw [Field.atVersion_of_not_group h]
    exact Window.sameAt_of_keeps ((keeps_skipFields Window.keeps_advance).field f) hw
  · intro f g hk ih _ w hw
    have hk' : (f.atVersion version).kind = .group (g.atVersion version) := by
      rw [Field.atVersion_group hk]
    rw [Field.skip_group hk, Field.skip_group hk']
    apply Alike.get_bind
    -- The views differ in their tables only, so the second one is had from the first.
    rw [Field.inVersion_atVersion, GroupView.bind_atVersion, bind_map_left]
    apply Alike.bind (Window.sameAt_of_keeps (GroupView.keeps_bind Window.keeps_advance f g _) hw)
    rintro view t t' ⟨rfl, ht⟩
    exact Iteration.sameAt_run ih view ht
  · intro f d hk _ w hw
    rw [Field.atVersion_of_not_group (by simp [hk])]
    exact Window.sameAt_of_keeps ((keeps_skipFields Window.keeps_advance).field f) hw
  · exact fun w hw => .pure ⟨rfl, hw⟩ _
  · intro f rest hf ih w hw
    by_cases hv : f.inVersion version
    · rw [fieldsAtVersion_of_visible rest hv]
      apply Alike.bind (hf hv w hw)
      rintro _ t t' ⟨rfl, ht⟩
      exact ih _ ht
    -- What the version lacks takes no bytes, so skipping it is skipping the rest.
    · have hv' : f.inVersion version = false := Bool.eq_false_iff.mpr hv
      have hskip : skipFields (f :: rest) w = skipFields rest w :=
        Action.bind_of_ok (Field.skip_of_invisible (by rw [hw, hv']))
      obtain ⟨hresult, hrelated⟩ := ih w hw
      rw [fieldsAtVersion_of_invisible rest hv']
      exact ⟨by rw [hskip, hresult], by rw [hskip]; exact hrelated⟩

namespace Sight

/-- The sights of a trail and those that are left of them with the schema of the version: all but
those of absent fields. -/
structure Restricted (version : UInt16) (sights left : List Sight) : Prop where
  eq : left = (sights.filter (·.inVersion version)).map (·.atVersion version)
  absent : ∀ s ∈ sights, s.inVersion version = false → s.Absent version

namespace Restricted

variable {sights sights' left left' : List Sight} {s : Sight}

theorem nil : Restricted version [] [] :=
  ⟨rfl, by simp⟩

theorem append (h : Restricted version sights left) (h' : Restricted version sights' left') :
    Restricted version (sights ++ sights') (left ++ left') := by
  constructor
  · rw [h.eq, h'.eq, List.filter_append, List.map_append]
  · intro s hs
    rcases List.mem_append.mp hs with hs | hs
    · exact h.absent s hs
    · exact h'.absent s hs

theorem seen (hs : s.inVersion version) : Restricted version [s] [s.atVersion version] := by
  constructor
  · rw [List.filter_cons_of_pos hs]
    rfl
  · intro s' hs' hv
    rw [List.mem_singleton.mp hs', hs] at hv
    cases hv

theorem hidden (hs : s.inVersion version = false) (ha : s.Absent version) :
    Restricted version [s] [] := by
  constructor
  · rw [List.filter_cons_of_neg (by rw [hs]; exact Bool.false_ne_true)]
    rfl
  · intro s' hs' _
    rw [List.mem_singleton.mp hs']
    exact ha

end Restricted

end Sight

theorem Field.frame_trail (base : Nat) (f : Field) (w : Window) :
    (f.trail base w).2.frame = w.frame := by
  obtain ⟨-, hwindow⟩ := Prod.mk.inj (trail_walk.field f base w)
  rw [hwindow, frame_walk.field]

theorem frame_trailFields (base : Nat) (fields : List Field) (w : Window) :
    (trailFields base fields w).2.frame = w.frame := by
  obtain ⟨-, hwindow⟩ := Prod.mk.inj (trail_walk.table fields base w)
  rw [hwindow, frame_walk.table]

theorem Field.trail_of_invisible {f : Field} (base : Nat) {w : Window}
    (hv : f.inVersion w.version = false) :
    ∃ part, f.trail base w = ([⟨some f, part, w.position, w.position⟩], w) ∧
      (f.absentReading w.version).parts = [part] := by
  have hwalk := walk_of_invisible.field f base true w (by rw [hv]; rfl)
  cases hk : f.kind with
  | group g =>
    exact ⟨_, trail_group_of_ok hk (GroupView.bind_of_invisible hv f g w), by
      rw [absentReading_group hk]
      rfl⟩
  | _ =>
    refine ⟨_, by rw [trail_of_not_group (by simp [hk]), hwalk], ?_⟩
    obtain ⟨name, id, offset, kind, presence, constant, since⟩ := f
    cases hk
    rfl

theorem Trail.restricted_elements {follow follow' : Nat → StateM Window (List Sight)}
    (hf : ∀ base w, w.version = version →
      Sight.Restricted version (follow base w).1 (follow' base w).1 ∧
        (follow' base w).2 = (follow base w).2)
    (hframe : ∀ base w, (follow base w).2.frame = w.frame) (n : Nat) (it : Iteration)
    (hw : it.window.version = version) :
    Sight.Restricted version (elements follow n it).1
        (elements follow' n (it.atVersion version)).1 ∧
      (elements follow' n (it.atVersion version)).2 =
        (elements follow n it).2.atVersion version := by
  induction n generalizing it with
  | zero => exact ⟨.nil, rfl⟩
  | succ n ih =>
    have hnext' := Iteration.next_atVersion version it
    cases hnext : Iteration.next it with
    | mk result it₁ =>
      rw [hnext] at hnext'
      cases result with
      | error reason =>
        rw [elements_of_error hnext, elements_of_error hnext']
        exact ⟨.seen rfl, rfl⟩
      | ok base =>
        have hversion : it₁.window.version = version := (Iteration.version_next hnext).trans hw
        obtain ⟨hsights, hwindow⟩ := hf base it₁.window hversion
        have hafter : (follow base it₁.window).2.version = version :=
          (Window.version_of_frame (hframe base it₁.window)).trans hversion
        obtain ⟨hrest, hlast⟩ := ih { it₁ with window := (follow base it₁.window).2 } hafter
        have hset : { it₁.atVersion version with window := (follow' base it₁.window).2 } =
            Iteration.atVersion version { it₁ with window := (follow base it₁.window).2 } := by
          rw [hwindow]
          rfl
        rw [← hset] at hrest hlast
        rw [elements_of_ok hnext, elements_of_ok hnext']
        exact ⟨.append (.seen rfl) (.append hsights hrest), hlast⟩

theorem trail_restricted :
    TableInduction
      (fun f => f.inVersion version → ∀ base w, w.version = version →
        Sight.Restricted version (f.trail base w).1 ((f.atVersion version).trail base w).1 ∧
          ((f.atVersion version).trail base w).2 = (f.trail base w).2)
      (fun fields => ∀ base w, w.version = version →
        Sight.Restricted version (trailFields base fields w).1
            (trailFields base (fieldsAtVersion version fields) w).1 ∧
          (trailFields base (fieldsAtVersion version fields) w).2 =
            (trailFields base fields w).2) := by
  have hnot {f : Field} (h : ∀ g, f.kind ≠ .group g) (hv : f.inVersion version) (base : Nat)
      (w : Window) :
      Sight.Restricted version (f.trail base w).1 ((f.atVersion version).trail base w).1 ∧
        ((f.atVersion version).trail base w).2 = (f.trail base w).2 := by
    have hseen (part : Part) (start stop : Nat) :=
      Sight.Restricted.seen (s := ⟨some f, part, start, stop⟩) hv
    simp only [Sight.atVersion, Option.map_some, Field.atVersion_of_not_group h] at hseen
    rw [Field.atVersion_of_not_group h, Field.trail_of_not_group h]
    exact ⟨hseen _ _ _, rfl⟩
  apply TableInduction.of_fixed
  · exact fun f h _ hv base w _ => hnot h hv base w
  · intro f g hk ih hv base w hw
    have hk' : (f.atVersion version).kind = .group (g.atVersion version) := by
      rw [Field.atVersion_group hk]
    have hbind := congrFun (GroupView.bind_atVersion version f g (f.inVersion w.version)) w
    cases hview : GroupView.bind f g (f.inVersion w.version) w with
    | mk result v =>
      rw [Action.map_apply, hview, ← Field.inVersion_atVersion version f] at hbind
      cases result with
      | error reason =>
        rw [Field.trail_group_of_error hk hview, Field.trail_group_of_error hk' hbind]
        exact ⟨.seen (s := ⟨some f, _, _, _⟩) hv, rfl⟩
      | ok view =>
        have hversion : v.version = version :=
          (Window.version_of_frame
            ((GroupView.keeps_bind Window.keeps_advance f g _).after hview)).trans hw
        obtain ⟨hsights, hlast⟩ := Trail.restricted_elements ih
          (fun base => frame_trailFields base g.fields) view.count ⟨view, v⟩ hversion
        rw [Field.trail_group_of_ok hk hview, Field.trail_group_of_ok hk' hbind,
          Field.name_atVersion]
        exact ⟨.append (.seen (s := ⟨some f, _, _, _⟩) hv) hsights,
          (congrArg Iteration.window hlast :)⟩
  · exact fun f d hk hv base w _ => hnot (by simp [hk]) hv base w
  · exact fun _ _ _ => ⟨.nil, rfl⟩
  · intro f rest hf ih base w hw
    by_cases hv : f.inVersion version
    · obtain ⟨hsights, hwindow⟩ := hf hv base w hw
      have hversion : (f.trail base w).2.version = version :=
        (Window.version_of_frame (f.frame_trail base w)).trans hw
      obtain ⟨hrest, hlast⟩ := ih base (f.trail base w).2 hversion
      rw [fieldsAtVersion_of_visible rest hv, trailFields_cons, trailFields_cons, hwindow]
      exact ⟨hsights.append hrest, hlast⟩
    · -- A removed field shows one sight and leaves the window, so that the rest starts alike.
      have hv' : f.inVersion version = false := Bool.eq_false_iff.mpr hv
      subst hw
      obtain ⟨part, htrail, habsent⟩ := Field.trail_of_invisible base hv'
      obtain ⟨hrest, hlast⟩ := ih base w rfl
      rw [fieldsAtVersion_of_invisible rest hv', trailFields_cons, htrail]
      exact ⟨.append (.hidden (s := ⟨some f, _, _, _⟩) hv' ⟨⟨f, rfl, habsent⟩, rfl⟩) hrest, hlast⟩

namespace Message

theorem wrapForDecode_atVersion (bytes : Bytes) (offset limit blockLength : Nat)
    (acting version : UInt16) (definition : MessageDef) :
    wrapForDecode bytes offset limit blockLength acting (definition.atVersion version) =
      (wrapForDecode bytes offset limit blockLength acting definition).map
        (·.atVersion version) := by
  rw [wrapForDecode_eq, wrapForDecode_eq]
  split
  · rfl
  · cases Window.open? bytes limit (offset + blockLength) acting with
    | error reason => rfl
    | ok w => rfl

theorem skip_eq_atVersion {m : Message} (hm : m.version = version) :
    skip (m.atVersion version) = ((skip m).1, (skip m).2.atVersion version) := by
  have hrewind : (m.atVersion version).rewind = m.rewind.atVersion version := rfl
  have hversion : m.rewind.window.version = version :=
    (Window.version_of_frame (congrArg window m.frame_rewind)).trans hm
  obtain ⟨hresult, hwindow, -⟩ :=
    skip_atVersion.table m.rewind.definition.fields m.rewind.window hversion
  have hsame : skipFields (m.rewind.atVersion version).definition.fields
      (m.rewind.atVersion version).window = skipFields m.rewind.definition.fields m.rewind.window :=
    Prod.ext hresult hwindow
  simp only [skip, Action.bind_apply, Action.modify_apply, hrewind, Action.get_apply, onWindow,
    Action.onPart_apply, hsame]
  cases skipFields m.rewind.definition.fields m.rewind.window with
  | mk result w =>
    cases result with
    | ok a => rfl
    | error reason => rfl

/-- A message read in an older version is read as with the schema of that version: what is shown of
the fields of the older schema, the positions on the way, and the end are the same, and all that is
shown besides is that the newer fields are absent. -/
theorem read_at_older_version (bytes : Bytes) (offset limit blockLength : Nat) (version : UInt16)
    (definition : MessageDef) :
    wrapForDecode bytes offset limit blockLength version (definition.atVersion version) =
        (wrapForDecode bytes offset limit blockLength version definition).map
          (·.atVersion version) ∧
      ∀ m, wrapForDecode bytes offset limit blockLength version definition = .ok m →
        (m.atVersion version).trail =
          ((m.trail.1.filter (·.inVersion version)).map (·.atVersion version), m.trail.2) ∧
        (∀ s ∈ m.trail.1, s.inVersion version = false → s.Absent version) ∧
        skip (m.atVersion version) = ((skip m).1, (skip m).2.atVersion version) := by
  refine ⟨wrapForDecode_atVersion bytes offset limit blockLength version version definition, ?_⟩
  intro m hm
  have hversion : m.version = version := by
    obtain ⟨-, -, _, rfl⟩ := wrapForDecode_eq_ok hm
    rfl
  obtain ⟨hsights, hwindow⟩ :=
    trail_restricted.table m.definition.fields m.offset m.window hversion
  exact ⟨Prod.ext hsights.eq hwindow, hsights.absent, skip_eq_atVersion hversion⟩

end Message

def Market.Snapshot.olderWire : Bytes :=
  List.replicate 28 0 ++ [29, 0, 2] ++ List.replicate 58 0 ++ [2, 104, 105]

namespace Message

theorem read_at_older_version_snapshot :
    ∃ m, wrapForDecode Market.Snapshot.olderWire 0 92 28 1 Market.Snapshot.definition = .ok m ∧
      m.trail.1.countP (!·.inVersion 1) = 2 ∧
      (∀ s ∈ m.trail.1, s.inVersion 1 = false → s.Absent 1) ∧
      (m.atVersion 1).trail.2.position = 92 ∧ (skip (m.atVersion 1)).1 = .ok 92 := by
  obtain ⟨-, h⟩ := read_at_older_version Market.Snapshot.olderWire 0 92 28 1
    Market.Snapshot.definition
  obtain ⟨htrail, habsent, hskip⟩ := h _ rfl
  refine ⟨_, rfl, ?_, habsent, ?_, ?_⟩
  · decide +kernel
  · rw [htrail]
    decide +kernel
  · rw [hskip]
    rfl

end Message

namespace Stamp

def mark : Field :=
  ⟨"mark", 1, 0, .type (.plain "Mark" .uint8 1), .constant, none, 3⟩

def definition : MessageDef :=
  ⟨"Stamp", 1, 0, [mark], { Market.schema with version := 3 }⟩

end Stamp

theorem Message.constant_missing_at_older_version :
    flatFields Stamp.definition.fields ∧ Stamp.mark.inVersion 2 = false ∧
    ∃ m, wrapForDecode [0] 0 1 0 2 Stamp.definition = .ok m ∧
      m.trail = ([⟨some Stamp.mark, .field (.type "mark" (.ok false)
        (.error (.kindMismatch "mark"))), 0, 0⟩], m.window) :=
  ⟨by decide, rfl, _, rfl, rfl⟩

end SimpleBinary
