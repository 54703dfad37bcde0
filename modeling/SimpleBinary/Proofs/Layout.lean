import Mathlib.Data.List.Forall2
import SimpleBinary.Proofs.Data
import SimpleBinary.Proofs.Locality
import SimpleBinary.Proofs.Readings
import SimpleBinary.Proofs.Spans

/-!
The layout of a message: what is read completely lies in blocks, headers and payloads, one behind
the other. A longer message has the same with more at the end of its blocks.
-/

namespace SimpleBinary

structure GroupOf.Lengthened {F : Type} (g : GroupOf F) (header header' : Bytes) (extra : Nat) :
    Prop where
  length_eq : header.length = g.dimension.encodedLength
  length_eq' : header'.length = g.dimension.encodedLength
  count_eq : g.numInGroupMember.number header' = g.numInGroupMember.number header
  blockLength_eq : g.blockLengthMember.number header' = g.blockLengthMember.number header + extra

theorem GroupOf.lengthened_overwrite {F : Type} {g : GroupOf F} (hg : g.MembersInside)
    (hu : g.blockLengthMember.primitive.isUnsigned)
    (ha : Bytes.Apart g.blockLengthMember.offset g.blockLengthMember.primitive.size
      g.numInGroupMember.offset g.numInGroupMember.primitive.size)
    {header : Bytes} (hlength : header.length = g.dimension.encodedLength) {extra : Nat}
    (hfits : g.blockLengthMember.number header + extra ≤ g.blockLengthMember.primitive.rawMax) :
    g.Lengthened header (header.overwrite g.blockLengthMember.offset
      (g.blockLengthMember.primitive.encode
        (.uint (UInt64.ofNat (g.blockLengthMember.number header + extra))))) extra := by
  have hinside := hg.blockLength
  have hsize := g.blockLengthMember.primitive.length_encode
    (.uint (UInt64.ofNat (g.blockLengthMember.number header + extra)))
  unfold Member.Inside at hinside
  refine ⟨hlength, ?_, ?_, Member.number_of_encode hu hfits ?_⟩
  · rw [Bytes.length_overwrite (by omega), hlength]
  · rw [Member.number, Bytes.slice_overwrite_apart (by omega) (by rwa [hsize])]
    rfl
  · rw [← hsize, Bytes.slice_overwrite (by omega)]

structure DataOf.Fills {F : Type} (d : DataOf F) (part header payload : Bytes) : Prop where
  part_eq : part = header ++ payload
  header_length : header.length = d.headerLength
  payload_length :
    payload.length = d.lengthMember.number header * d.varDataMember.primitive.size

structure BlockExtended (version : UInt16) (fields : List Field) (length extra : Nat)
    (Rest : Bytes → Bytes → Prop) (part part' : Bytes) : Prop where
  inside : InBlockFields version length fields 0
  split : ∃ block added rest rest', part = block ++ rest ∧ part' = block ++ added ++ rest' ∧
    block.length = length ∧ added.length = extra ∧ Rest rest rest'

mutual

/-- The first string is what the field takes behind the blocks, and the second one is that with
every block in it extended, those of one group by as many bytes. -/
def Field.Extended (version : UInt16) : Field → Bytes → Bytes → Prop
  | ⟨_, _, _, .group g, _, _, since⟩ => fun part part' =>
    if since ≤ version then
      ∃ header header' extra elements elements', g.Lengthened header header' extra ∧
        part = header ++ elements.flatten ∧ part' = header' ++ elements'.flatten ∧
        elements.length = g.numInGroupMember.number header ∧
        List.Forall₂ (BlockExtended version g.fields (g.blockLengthMember.number header) extra
          (ExtendedFields version g.fields)) elements elements'
    else part = [] ∧ part' = []
  | ⟨_, _, _, .data d, _, _, since⟩ => fun part part' =>
    if since ≤ version then part' = part ∧ ∃ header payload, d.Fills part header payload
    else part = [] ∧ part' = []
  | _ => fun part part' => part = [] ∧ part' = []

def ExtendedFields (version : UInt16) : List Field → Bytes → Bytes → Prop
  | [] => fun part part' => part = [] ∧ part' = []
  | f :: rest => fun part part' => ∃ a a' b b', part = a ++ b ∧ part' = a' ++ b' ∧
    f.Extended version a a' ∧ ExtendedFields version rest b b'

end

mutual

def Field.Spacious (version : UInt16) : Field → Reading → Prop
  | ⟨_, _, _, .group g, _, _, _⟩, .group _ _ blockLength elements =>
    ∀ readings, .ok readings ∈ elements →
      InBlockFields version blockLength g.fields 0 ∧ SpaciousFields version g.fields readings
  | _, _ => True

def SpaciousFields (version : UInt16) : List Field → List Reading → Prop
  | f :: fields, reading :: readings =>
    f.Spacious version reading ∧ SpaciousFields version fields readings
  | _, _ => True

end

def Window.Holds (w : Window) (part : Bytes) : Prop :=
  w.read w.position part.length = .ok part

namespace Window.Holds

variable {w w' : Window} {a b : Bytes}

theorem le (h : w.Holds a) : w.position + a.length ≤ w.limit :=
  (Window.read_eq_ok.mp h).1

theorem left (h : w.Holds (a ++ b)) : w.Holds a := by
  have hread := Window.read_part h (show 0 + a.length ≤ (a ++ b).length by simp)
  rw [Bytes.slice_append_left (by simp), Bytes.slice_self (Nat.le_refl _)] at hread
  exact hread

theorem of_le (hw : w.Sound) {size : Nat} (h : w.position + size ≤ w.limit) :
    ∃ part : Bytes, part.length = size ∧ w.Holds part := by
  have hlength : (w.bytes.slice w.position size).length = size :=
    Bytes.length_slice (Nat.le_trans h hw.limit_le)
  refine ⟨w.bytes.slice w.position size, hlength, ?_⟩
  rw [Window.Holds, hlength]
  exact Window.read_of_le h

theorem append (h : w.Holds a) (h' : (w.moved a.length).Holds b) : w.Holds (a ++ b) := by
  obtain ⟨_, ha⟩ := Window.read_eq_ok.mp h
  obtain ⟨hle, hb⟩ := Window.read_eq_ok.mp h'
  rw [Window.moved_position] at hle hb
  rw [Window.moved_limit] at hle
  rw [Window.moved_bytes] at hb
  rw [Window.Holds, List.length_append, Window.read_of_le (by omega), Bytes.slice_add, ha, hb]

theorem right (h : w.Holds (a ++ b)) : (w.moved a.length).Holds b := by
  have hread := Window.read_part h (show a.length + b.length ≤ (a ++ b).length by simp)
  rw [Bytes.slice_append_right (Nat.le_refl _), Nat.sub_self,
    Bytes.slice_self (Nat.le_refl _)] at hread
  exact hread

end Window.Holds

namespace Field

variable {f : Field} {version : UInt16} {part part' : Bytes}

theorem extended_of_fixed (hf : f.isFixed) :
    f.Extended version part part' ↔ part = [] ∧ part' = [] := by
  obtain ⟨name, id, offset, kind, presence, constant, since⟩ := f
  cases kind with
  | group g => cases hf
  | data d => cases hf
  | _ => rfl

theorem extended_group {g : GroupDef} (hk : f.kind = .group g) :
    f.Extended version part part' ↔
      if f.since ≤ version then
        ∃ header header' extra elements elements', g.Lengthened header header' extra ∧
          part = header ++ elements.flatten ∧ part' = header' ++ elements'.flatten ∧
          elements.length = g.numInGroupMember.number header ∧
          List.Forall₂ (BlockExtended version g.fields (g.blockLengthMember.number header) extra
            (ExtendedFields version g.fields)) elements elements'
      else part = [] ∧ part' = [] := by
  obtain ⟨name, id, offset, kind, presence, constant, since⟩ := f
  cases hk
  rfl

theorem extended_data {d : DataDef} (hk : f.kind = .data d) :
    f.Extended version part part' ↔
      if f.since ≤ version then part' = part ∧ ∃ header payload, d.Fills part header payload
      else part = [] ∧ part' = [] := by
  obtain ⟨name, id, offset, kind, presence, constant, since⟩ := f
  cases hk
  rfl

end Field

theorem extendedFields_of_fixed {version : UInt16} (fixed fields : List Field) {part part' : Bytes}
    (hfixed : ∀ f ∈ fixed, f.isFixed) (h : ExtendedFields version fields part part') :
    ExtendedFields version (fixed ++ fields) part part' := by
  induction fixed with
  | nil => exact h
  | cons f rest ih =>
    have hrest := ih fun g hg => hfixed g (List.mem_cons_of_mem f hg)
    exact ⟨[], [], part, part', rfl, rfl,
      (Field.extended_of_fixed (hfixed f List.mem_cons_self)).mpr ⟨rfl, rfl⟩, hrest⟩

def Field.ShowsLayout (f : Field) : Prop :=
  ∀ (base : Nat) (w v : Window) (reading : Reading), f.flat → f.framed → w.Sound →
    w.limit + f.span < UInt64.size → f.walk base true w = (reading, v) → reading.complete →
    f.Spacious w.version reading →
    ∃ part, w.Holds part ∧ v = w.moved part.length ∧ f.Extended w.version part part

def ShowsLayoutFields (fields : List Field) : Prop :=
  ∀ (base : Nat) (w v : Window) (readings : List Reading), flatFields fields →
    framedFields fields → w.Sound → w.limit + spanFields fields < UInt64.size →
    walkFields base true fields w = (readings, v) → completeReadings readings →
    SpaciousFields w.version fields readings →
    ∃ part, w.Holds part ∧ v = w.moved part.length ∧ ExtendedFields w.version fields part part

theorem Window.Holds.nil {w : Window} (hw : w.Sound) : w.Holds [] := by
  obtain ⟨part, hlength, hpart⟩ :=
    Window.Holds.of_le hw (show w.position + 0 ≤ w.limit from hw.position_le)
  rwa [List.length_eq_zero_iff.mp hlength] at hpart

namespace Field

variable {f : Field}

theorem showsLayout_of_fixed (hf : f.isFixed) : f.ShowsLayout := by
  intro base w v reading hflat _ hw _ hwalk _ _
  refine ⟨[], .nil hw, ?_, (extended_of_fixed hf).mpr ⟨rfl, rfl⟩⟩
  have hstays := walk_window_of_fixed.field f hf hflat base true w
  rw [hwalk] at hstays
  exact hstays

theorem showsLayout_data {d : DataDef} (hk : f.kind = .data d) : f.ShowsLayout := by
  intro base w v reading _ hframed hw hspan hwalk hcomplete _
  have hd := (framed_data hk).mp hframed
  have hword : w.position + d.headerLength < UInt64.size := by
    have hposition := hw.position_le
    have hdata := data_span_le hk
    simp only [DataOf.span] at hdata
    omega
  rw [walk_data hk] at hwalk
  cases hwalk
  by_cases hv : f.since ≤ w.version
  · have hvisible : (f.dataView d true w.version).visible = true := decide_eq_true hv
    obtain ⟨_, hvalue⟩ := Bool.and_eq_true_iff.mp hcomplete
    obtain ⟨header, payload, hlength, hfollows⟩ :=
      DataView.follows_of_value hvisible hd hw hword hvalue
    have hheader : w.Holds header := by
      rw [Window.Holds, hlength]
      exact hfollows.read_header
    have hpayload : (w.moved header.length).Holds payload := by
      rw [hlength]
      exact hfollows.read_payload
    refine ⟨header ++ payload, hheader.append hpayload, ?_, (extended_data hk).mpr ?_⟩
    · rw [hfollows.value_eq, List.length_append, hlength]
    · rw [if_pos hv]
      exact ⟨rfl, header, payload, rfl, hlength, hfollows.length_eq⟩
  · have hinvisible : (f.dataView d true w.version).visible = false := decide_eq_false hv
    refine ⟨[], .nil hw, ?_, (extended_data hk).mpr ?_⟩
    · simp only [DataView.value, hinvisible]
      rfl
    · rw [if_neg hv]
      exact ⟨rfl, rfl⟩

end Field

theorem showsLayout_elements {fields : List Field} (ih : ShowsLayoutFields fields)
    (hflat : flatFields fields) (hframed : framedFields fields) (n : Nat) (g : GroupView)
    (w : Window) (hw : w.Sound) (hspan : w.limit + spanFields fields < UInt64.size)
    (hcount : g.index + n = g.count)
    {readings : List (Except Error (List Reading))} {it : Iteration}
    (hwalk : Walk.elements (fun base => walkFields base true fields) n ⟨g, w⟩ = (readings, it))
    (hcomplete : completeElements readings)
    (hspacious : ∀ element, .ok element ∈ readings →
      InBlockFields w.version g.blockLength fields 0 ∧ SpaciousFields w.version fields element) :
    ∃ elements : List Bytes, elements.length = n ∧ w.Holds elements.flatten ∧
      it.window = w.moved elements.flatten.length ∧
      List.Forall₂ (BlockExtended w.version fields g.blockLength 0
        (ExtendedFields w.version fields)) elements elements := by
  -- An element that could not be visited leaves the reading incomplete: every block is there.
  induction n generalizing g w readings it with
  | zero =>
    cases hwalk
    exact ⟨[], rfl, .nil hw, rfl, .nil⟩
  | succ n ihn =>
    by_cases hle : w.position + g.blockLength ≤ w.limit
    · rw [Walk.elements_succ_of_le (by omega) hle] at hwalk
      obtain ⟨element, v, hread⟩ : ∃ element v,
        walkFields w.position true fields (w.moved g.blockLength) = (element, v) := ⟨_, _, rfl⟩
      rw [hread] at hwalk
      cases hwalk
      obtain ⟨hfirst, hothers⟩ := Bool.and_eq_true_iff.mp hcomplete
      obtain ⟨hinside, helement⟩ := hspacious element List.mem_cons_self
      obtain ⟨block, hlength, hblock⟩ := Window.Holds.of_le hw hle
      rw [← hlength] at hread hle
      obtain ⟨rest, hrest, rfl, hlaid⟩ := ih w.position (w.moved block.length) v element hflat
        hframed (hw.moved hle) hspan hread hfirst helement
      have hpart := hblock.append hrest
      rw [Window.moved_moved, ← List.length_append] at hothers hspacious ⊢
      obtain ⟨elements, hcount, helements, hend, hall⟩ := ihn (g.entered w.position)
        (w.moved (block ++ rest).length) (hw.moved hpart.le) hspan
        (show g.index + 1 + n = g.count by omega) rfl hothers
        fun other hother => hspacious other (List.mem_cons_of_mem _ hother)
      refine ⟨(block ++ rest) :: elements, ?_, ?_, ?_, .cons ⟨hinside, ?_⟩ hall⟩
      · rw [List.length_cons, hcount]
      · rw [List.flatten_cons]
        exact hpart.append helements
      · rw [hend, Window.moved_moved, List.flatten_cons, ← List.length_append]
      · exact ⟨block, [], rest, rest, rfl, by rw [List.append_nil], hlength, rfl, hlaid⟩
    · rw [Walk.elements_succ_of_lt (by omega) (Nat.lt_of_not_le hle)] at hwalk
      cases hwalk
      cases hcomplete

namespace Field

variable {f : Field}

theorem walk_group_of_header {g : GroupDef} (hk : f.kind = .group g) (hg : g.MembersInside)
    {w : Window} (hv : f.since ≤ w.version) {header : Bytes} (hh : w.Holds header)
    (hlength : header.length = g.dimension.encodedLength) {n : Nat}
    (hn : n = g.numInGroupMember.number header) {readings : List (Except Error (List Reading))}
    {it : Iteration}
    (he : Walk.elements (fun base => walkFields base true g.fields) n
      ⟨⟨f, g, w.position, g.blockLengthMember.number header, n, 0, none, true⟩,
        w.moved header.length⟩ = (readings, it)) (base : Nat) :
    f.walk base true w =
      (.group f.name n (g.blockLengthMember.number header) readings, it.window) := by
  have hvisible : (true && f.inVersion w.version) = true := decide_eq_true hv
  rw [Window.Holds, hlength] at hh
  have hbind : GroupView.bind f g (true && f.inVersion w.version) w = _ :=
    (congrArg (GroupView.bind f g · w) hvisible).trans (GroupView.bind_of_header hg hh f)
  rw [walk_group_of_ok hk hbind]
  subst hn
  rw [hlength] at he
  dsimp only
  rw [he]

theorem walk_group_of_invisible {g : GroupDef} (hk : f.kind = .group g) {w : Window}
    (hv : ¬ f.since ≤ w.version) (base : Nat) :
    f.walk base true w = (.group f.name 0 g.blockLength [], w) := by
  have hinvisible : (true && f.inVersion w.version) = false := decide_eq_false hv
  have hbind : GroupView.bind f g (true && f.inVersion w.version) w = _ :=
    (congrArg (GroupView.bind f g · w) hinvisible).trans (GroupView.bind_invisible f g w)
  rw [walk_group_of_ok hk hbind]
  rfl

theorem spacious_group {version : UInt16} {g : GroupDef} (hk : f.kind = .group g) {name : String}
    {count blockLength : Nat} {elements : List (Except Error (List Reading))} :
    f.Spacious version (.group name count blockLength elements) ↔
      ∀ readings, .ok readings ∈ elements →
        InBlockFields version blockLength g.fields 0 ∧
          SpaciousFields version g.fields readings := by
  obtain ⟨name, id, offset, kind, presence, constant, since⟩ := f
  cases hk
  rfl

theorem showsLayout_group {g : GroupDef} (hk : f.kind = .group g)
    (ih : ShowsLayoutFields g.fields) : f.ShowsLayout := by
  intro base w v reading hflat hframed hw hspan hwalk hcomplete hspacious
  have helements : w.limit + spanFields g.fields < UInt64.size := by
    have hgroup := group_span_le hk
    simp only [GroupOf.span] at hgroup
    omega
  obtain ⟨hmembers, hfields⟩ := (framed_group hk).mp hframed
  by_cases hv : f.since ≤ w.version
  · by_cases hle : w.position + g.dimension.encodedLength ≤ w.limit
    · obtain ⟨header, hlength, hheader⟩ := Window.Holds.of_le hw hle
      obtain ⟨readings, it, he⟩ : ∃ readings it,
        Walk.elements (fun base => walkFields base true g.fields)
          (g.numInGroupMember.number header)
          ⟨⟨f, g, w.position, g.blockLengthMember.number header, g.numInGroupMember.number header,
            0, none, true⟩, w.moved header.length⟩ = (readings, it) := ⟨_, _, rfl⟩
      rw [walk_group_of_header hk hmembers hv hheader hlength rfl he] at hwalk
      cases hwalk
      obtain ⟨elements, hcount, hlaid, hend, hall⟩ :=
        showsLayout_elements ih ((flat_group hk).mp hflat) hfields _ _ _ (hw.moved hheader.le)
          helements (Nat.zero_add _) he hcomplete ((spacious_group hk).mp hspacious)
      refine ⟨header ++ elements.flatten, hheader.append hlaid, ?_, (extended_group hk).mpr ?_⟩
      · rw [hend, Window.moved_moved, List.length_append]
      · rw [if_pos hv]
        exact ⟨header, header, 0, elements, elements, ⟨hlength, hlength, rfl, rfl⟩, rfl, rfl,
          hcount, hall⟩
    · have hvisible : (true && f.inVersion w.version) = true := decide_eq_true hv
      have hbind : GroupView.bind f g (true && f.inVersion w.version) w = _ :=
        (congrArg (GroupView.bind f g · w) hvisible).trans
          (GroupView.bind_of_lt (Nat.lt_of_not_le hle) f)
      rw [walk_group_of_error hk hbind] at hwalk
      cases hwalk
      cases hcomplete
  · rw [walk_group_of_invisible hk hv] at hwalk
    cases hwalk
    refine ⟨[], .nil hw, rfl, (extended_group hk).mpr ?_⟩
    rw [if_neg hv]
    exact ⟨rfl, rfl⟩

end Field

theorem showsLayout : TableInduction Field.ShowsLayout ShowsLayoutFields := by
  apply TableInduction.of_fixed
  · intro f h h'
    exact Field.showsLayout_of_fixed (Field.isFixed_of_kind h h')
  · intro f g hk ih
    exact Field.showsLayout_group hk ih
  · intro f d hk
    exact Field.showsLayout_data hk
  · intro base w v readings _ _ hw _ hwalk _ _
    cases hwalk
    exact ⟨[], .nil hw, rfl, rfl, rfl⟩
  · intro f rest hf ih base w v readings hflat hframed hw hspan hwalk hcomplete hspacious
    obtain ⟨hspanFirst, hspanRest⟩ : w.limit + f.span < UInt64.size ∧
        w.limit + spanFields rest < UInt64.size := by
      simp only [spanFields] at hspan
      omega
    rw [walkFields_cons] at hwalk
    cases hwalk
    obtain ⟨hfirst, hothers⟩ := Bool.and_eq_true_iff.mp hcomplete
    obtain ⟨a, ha, hend, hlaid⟩ := hf base w _ _ (flatFields_cons.mp hflat).1
      (framedFields_cons.mp hframed).1 hw hspanFirst rfl hfirst hspacious.1
    rw [hend] at hothers hspacious ⊢
    obtain ⟨b, hb, hend', hlaid'⟩ := ih base (w.moved a.length) _ _ (flatFields_cons.mp hflat).2
      (framedFields_cons.mp hframed).2 (hw.moved ha.le) hspanRest rfl hothers hspacious.2
    refine ⟨a ++ b, ha.append hb, ?_, a, a, b, b, rfl, rfl, hlaid, hlaid'⟩
    rw [hend', Window.moved_moved, List.length_append]

end SimpleBinary
