import SimpleBinary.Market.Schema
import SimpleBinary.Proofs.Fixed
import SimpleBinary.Proofs.Frame
import SimpleBinary.Proofs.Regular
import SimpleBinary.Proofs.Store
import SimpleBinary.Proofs.Stored
import SimpleBinary.Proofs.Variable

namespace SimpleBinary

theorem Field.visible_bindAt {f : Field} {version : UInt16} (h : f.since ≤ version) (base : Nat) :
    (f.bindAt base true version).visible = true :=
  decide_eq_true h

def Field.CanRoundTrip (f : Field) : Prop :=
  ∀ (base size : Nat) (content : FieldContent) (w : Window), f.wellFormed w.version →
    (f.isStored → f.offset + f.extent ≤ size) → f.admits content →
    Room base size (f.wireLength content) w →
    RoundTrips [f] base (f.wireLength content) (f.store base true content)
      (fun v => f.shows w.version content (f.walk base true v).1 ∧
        (f.walk base true v).2 = v.moved (f.wireLength content)) w

def CanRoundTripFields (fields : List Field) : Prop :=
  ∀ (base size : Nat) (contents : List FieldContent) (w : Window),
    wellFormedFields w.version fields → LaidOut fields size → admitsFields fields contents →
    Room base size (wireLengthFields fields contents) w →
    RoundTrips fields base (wireLengthFields fields contents)
      (storeFields base true fields contents)
      (fun v => showsFields w.version fields contents (walkFields base true fields v).1 ∧
        (walkFields base true fields v).2 = v.moved (wireLengthFields fields contents)) w

namespace Field

theorem canRoundTrip_type (f : Field) (t : TypeDef) (hk : f.kind = .type t) : f.CanRoundTrip := by
  intro base size content w hwf hin ha hr
  have hfixed : f.isFixed := isFixed_of_kind (by simp [hk]) (by simp [hk])
  have hsince := (wellFormed_type hk).mp hwf
  rw [wireLength_of_fixed hfixed] at hr ⊢
  rcases admits_type hk ha with ⟨rfl, hp⟩ | ⟨value, rfl, hp, ha⟩
  · apply RoundTrips.of_nothing (store_none f w)
    intro v _
    rw [walk_type hk]
    refine ⟨shows_type_constant hk ?_, rfl⟩
    intro c hc
    exact Binding.value_of_constant hk hp hc
  · have hlen := extent_type hk hp
    have hf := isStored_of_fixed hfixed hp
    have hle := hr.wordOf_stored_le (hin hf)
    rw [hlen] at hle
    apply RoundTrips.of_written hr hf (hin hf) ((TypeDef.length_encode ha).trans hlen.symm)
    · rw [store_type hk]
      exact Binding.setValue_of_admits hk hp (visible_bindAt hsince base) ha hle
    · intro v hversion hread
      rw [hlen] at hread
      rw [← hversion] at hsince
      rw [walk_type hk, Binding.value_of_read hk hp (visible_bindAt hsince base) ha hread]
      exact ⟨shows_type hk _ value, rfl⟩

theorem canRoundTrip_enum (f : Field) (e : EnumDef) (hk : f.kind = .enum e) : f.CanRoundTrip := by
  intro base size content w hwf hin ha hr
  have hfixed : f.isFixed := isFixed_of_kind (by simp [hk]) (by simp [hk])
  obtain ⟨hsince, hu⟩ := (wellFormed_enum hk).mp hwf
  rw [wireLength_of_fixed hfixed] at hr ⊢
  rcases admits_enum hk ha with ⟨rfl, hp⟩ | ⟨n, rfl, hp, hn⟩
  · apply RoundTrips.of_nothing (store_none f w)
    intro v _
    rw [walk_enum hk]
    refine ⟨shows_enum_constant hk ?_, rfl⟩
    intro c n hc hn
    have hraw : (f.bindAt base true v.version).enumRaw v = _ :=
      Binding.enumRaw_of_constant hk hp hc hn
    exact ⟨hraw, Binding.enumName?_of_enumRaw hk hraw⟩
  · have hlen := extent_enum hk hp
    have hf := isStored_of_fixed hfixed hp
    have hle := hr.wordOf_stored_le (hin hf)
    rw [hlen] at hle
    apply RoundTrips.of_written hr hf (hin hf)
      ((e.encoding.length_encode (.uint n)).trans hlen.symm)
    · rw [store_enum hk]
      exact Binding.setEnumRaw_of_stored hk hp (visible_bindAt hsince base) hle
    · intro v hversion hread
      rw [hlen] at hread
      rw [← hversion] at hsince
      have hraw : (f.bindAt base true v.version).enumRaw v = .ok n :=
        Binding.enumRaw_of_read hk hp (visible_bindAt hsince base) hu hn hread
      rw [walk_enum hk, hraw, Binding.enumName?_of_enumRaw hk hraw]
      exact ⟨shows_enum hk _ n, rfl⟩

theorem canRoundTrip_set (f : Field) (s : SetDef) (hk : f.kind = .set s) : f.CanRoundTrip := by
  intro base size content w hwf hin ha hr
  have hfixed : f.isFixed := isFixed_of_kind (by simp [hk]) (by simp [hk])
  obtain ⟨hsince, hu⟩ := (wellFormed_set hk).mp hwf
  rw [wireLength_of_fixed hfixed] at hr ⊢
  rcases admits_set hk ha with ⟨rfl, hp⟩ | ⟨set, rfl, hp, he⟩
  · apply RoundTrips.of_nothing (store_none f w)
    intro v _
    rw [walk_set hk]
    refine ⟨shows_set_constant hk ?_, rfl⟩
    intro c set hc hb
    exact Binding.bits_of_constant hk hp hc hb
  · have hlen := extent_set hk hp
    have hf := isStored_of_fixed hfixed hp
    have hle := hr.wordOf_stored_le (hin hf)
    rw [hlen] at hle
    have hbytes : set.toBytes.length = f.extent := by
      rw [BitSet.toBytes, Primitive.length_encode, he, hlen]
    apply RoundTrips.of_written hr hf (hin hf) hbytes
    · have hset : BitSet.ofBits set.bits s.encoding = set := by rw [← he, BitSet.ofBits_bits]
      rw [store_set hk, Binding.setBits_of_stored hk hp (visible_bindAt hsince base) hle, hset]
      rfl
    · intro v hversion hread
      rw [hlen] at hread
      rw [← hversion] at hsince ⊢
      have hbits : (f.bindAt base true v.version).bits v = .ok set :=
        Binding.bits_of_read hk hp (visible_bindAt hsince base) he hu hread
      rw [walk_set hk, hbits, Binding.choices_of_bits hk hbits]
      exact ⟨shows_set hk _ set, rfl⟩

theorem store_data_stored {f : Field} {d : DataDef} (hk : f.kind = .data d) {base size : Nat}
    {bytes : Bytes} {w : Window} (hsince : f.since ≤ w.version) (hd : d.WellFormed)
    (ha : d.admits bytes) (hr : Room base size (d.headerLength + bytes.length) w) :
    f.store base true (.payload bytes) w =
        (.ok ⟨⟩, (f.dataView d true w.version).stored w bytes) ∧
      Stored [f] base (d.headerLength + bytes.length) w
        ((f.dataView d true w.version).stored w bytes) := by
  have hfit : w.position + ((f.dataView d true w.version).headerLength + bytes.length) ≤
      w.bytes.length := Nat.le_trans hr.behind_le hr.limit_le
  have hv : (f.dataView d true w.version).visible = true := decide_eq_true hsince
  refine ⟨?_, rfl, rfl, rfl, DataView.length_stored hd.inside hfit, ?_⟩
  · rw [store_data hk]
    exact DataView.setValue_of_admits hv hd.inside ha hr.behind_le
  · intro start size _ hbehind
    exact DataView.slice_stored hd.inside hfit hbehind

theorem canRoundTrip_data (f : Field) (d : DataDef) (hk : f.kind = .data d) : f.CanRoundTrip := by
  intro base size content w hwf _ hc hr
  obtain ⟨hsince, hd⟩ := (wellFormed_data hk).mp hwf
  obtain ⟨bytes, rfl, ha⟩ := admits_data hk hc
  rw [wireLength_data hk] at hr ⊢
  have hfit : w.position + ((f.dataView d true w.version).headerLength + bytes.length) ≤
      w.bytes.length := Nat.le_trans hr.behind_le hr.limit_le
  have hv : (f.dataView d true w.version).visible = true := decide_eq_true hsince
  obtain ⟨hstore, hs⟩ := store_data_stored hk hsince hd ha hr
  refine ⟨_, hstore, hs, ?_⟩
  intro v hcopy
  have hmax : bytes.length ≤ Window.maxPosition := by
    have := hr.behind_le
    have := hr.limit_le_max
    omega
  obtain ⟨hfollows, hcount⟩ :=
    DataView.follows_of_carries hd hfit hv ha hcopy.position_eq hmax hcopy.behind
  have hlength := DataView.length_of_header hv hd.inside hfollows.read_header
  rw [← hcopy.version_eq] at hfollows hcount hlength
  rw [walk_data hk, hfollows.value_eq, hlength, hcount]
  exact ⟨shows_data hk bytes, rfl⟩

end Field

theorem wireLengthFields_of_fixed {fields : List Field} (h : ∀ f ∈ fields, f.isFixed)
    (contents : List FieldContent) : wireLengthFields fields contents = 0 := by
  induction fields generalizing contents with
  | nil => rfl
  | cons f rest ih =>
    cases contents with
    | nil => rfl
    | cons content contents =>
      rw [wireLengthFields, Field.wireLength_of_fixed (h f List.mem_cons_self),
        ih fun g hg => h g (List.mem_cons_of_mem f hg)]

namespace Field

theorem canRoundTrip_composite (f : Field) (c : CompositeDef) (hk : f.kind = .composite c)
    (ih : CanRoundTripFields c.fields) : f.CanRoundTrip := by
  intro base size content w hwf hin ha hr
  have hfixed : f.isFixed := isFixed_of_kind (by simp [hk]) (by simp [hk])
  obtain ⟨hsince, hlaid, hmembers, hfields⟩ := (wellFormed_composite hk).mp hwf
  rw [wireLength_of_fixed hfixed] at hr ⊢
  rcases admits_composite hk ha with ⟨rfl, hp⟩ | ⟨contents, rfl, hp, ha⟩
  · apply RoundTrips.of_nothing (store_none f w)
    intro v _
    rw [walk_composite hk]
    exact ⟨shows_composite_constant hk _ _,
      walk_window_of_fixed.table c.fields hmembers (flat_of_wellFormed.table c.fields hfields)
        _ _ v⟩
  · have hlen := extent_composite hk hp
    have hf := isStored_of_fixed hfixed hp
    have hin := hin hf
    have hplace := hr.wordOf_place hin
    have hroom : Room (base + f.offset) c.encodedLength (wireLengthFields c.fields contents) w := by
      rw [wireLengthFields_of_fixed hmembers]
      refine ⟨?_, hr.behind_le, hr.limit_le, hr.limit_le_max⟩
      have := hr.block_le
      omega
    have hparts := ih (base + f.offset) c.encodedLength contents w hfields hlaid ha hroom
    rw [wireLengthFields_of_fixed hmembers] at hparts
    apply RoundTrips.of_parts hf (hlen ▸ hlaid.inside)
    obtain ⟨w', hstore, hs, hreads⟩ := hparts
    refine ⟨w', ?_, hs, ?_⟩
    · have hvis : f.inVersion w.version = true := decide_eq_true hsince
      rw [store_composite hk, hvis, hplace]
      exact hstore
    · intro v hcopy
      have hvis : f.inVersion v.version = true := by
        rw [hcopy.version_eq]
        exact decide_eq_true hsince
      obtain ⟨hshows, hmoved⟩ := hreads v hcopy
      rw [walk_composite hk, hvis, hplace]
      exact ⟨shows_composite hk hshows _, hmoved⟩

end Field

def GroupOf.elementsLength (g : GroupDef) (contents : List (List FieldContent)) : Nat :=
  (contents.map fun content => g.blockLength + wireLengthFields g.fields content).sum

def GroupOf.ShowsElements (g : GroupDef) (version : UInt16) (contents : List (List FieldContent))
    (elements : List (Except Error (List Reading))) : Prop :=
  List.Forall₂ (fun content element => ∃ readings, element = .ok readings ∧
    showsFields version g.fields content readings) contents elements

def GroupOf.StoresElements (g : GroupDef) (contents : List (List FieldContent)) (view : GroupView)
    (reads : Window → Prop) (w : Window) : Prop :=
  ∃ it, Iteration.storeElements (fun base => storeFields base true g.fields) contents ⟨view, w⟩ =
      (.ok ⟨⟩, it) ∧
    Stored [] 0 (g.elementsLength contents) w it.window ∧
    ∀ v, Copied [] 0 (g.elementsLength contents) w it.window v → reads v

namespace GroupOf.StoresElements

variable {g : GroupDef} {view : GroupView} {w : Window} {reads : Window → Prop}

theorem nil (h : ∀ v, reads v) : g.StoresElements [] view reads w :=
  ⟨⟨view, w⟩, rfl, ⟨rfl, rfl, rfl, rfl, fun _ _ _ _ => rfl⟩, fun v _ => h v⟩

theorem cons {content : List FieldContent} {rest : List (List FieldContent)}
    {readsRest : Window → Prop} (hlaid : LaidOut g.fields g.blockLength)
    (hb : view.blockLength = g.blockLength)
    (hc : view.count = view.index + (content :: rest).length)
    (hr : Room 0 0 (g.elementsLength (content :: rest)) w)
    (hfirst : Room w.position g.blockLength (wireLengthFields g.fields content)
        (w.moved g.blockLength) →
      RoundTrips g.fields w.position (wireLengthFields g.fields content)
        (storeFields w.position true g.fields content) reads (w.moved g.blockLength))
    (hrest : ∀ w₁, w₁.version = w.version →
      (view.entered w.position).count = (view.entered w.position).index + rest.length →
      Room 0 0 (g.elementsLength rest) w₁ →
      g.StoresElements rest (view.entered w.position) readsRest w₁) :
    g.StoresElements (content :: rest) view (fun v => reads (v.moved g.blockLength) ∧
      readsRest (v.moved (g.blockLength + wireLengthFields g.fields content))) w := by
  have hsum : g.elementsLength (content :: rest) =
      g.blockLength + wireLengthFields g.fields content + g.elementsLength rest := rfl
  rw [StoresElements, hsum]
  rw [hsum] at hr
  rw [List.length_cons] at hc
  have hle : w.position + view.blockLength ≤ w.limit := by
    have := hr.behind_le
    omega
  have hroom : Room w.position g.blockLength (wireLengthFields g.fields content)
      (w.moved g.blockLength) := by
    have := hr.behind_le
    exact ⟨Nat.le_refl _, by simp only [Window.moved_position, Window.moved_limit]; omega,
      hr.limit_le, hr.limit_le_max⟩
  obtain ⟨w₁, hstore, hs, hreads⟩ := hfirst hroom
  -- With what follows its block, the element is one piece that the rest does not disturb.
  have hs₁ := hs.element hlaid.inside 0
  have hcount : (view.entered w.position).count =
      (view.entered w.position).index + rest.length := by
    simp only [GroupView.entered, hc]
    omega
  obtain ⟨it, hstoreRest, hsRest, hreadsRest⟩ := hrest w₁ hs₁.version_eq hcount (hr.after hs₁)
  refine ⟨it, ?_, hs₁.append hsRest, ?_⟩
  · have hnext := Iteration.next_of_le (by omega) hle
    rw [hb] at hnext
    simp only [Iteration.storeElements, Action.bind_apply, hnext, Iteration.onWindow,
      Action.onPart_apply, hstore]
    exact hstoreRest
  · intro v hcopy
    exact ⟨hreads _ ((Copied.left [] hcopy hs₁ hsRest (by simp) (by simp)).element hlaid.inside),
      hreadsRest _ (Copied.right [] hcopy hs₁)⟩

end GroupOf.StoresElements

theorem storeElements_roundTrips {g : GroupDef} {version : UInt16}
    (hlaid : LaidOut g.fields g.blockLength) (hfields : wellFormedFields version g.fields)
    (ih : CanRoundTripFields g.fields) (contents : List (List FieldContent)) (view : GroupView)
    (w : Window) (hversion : w.version = version) (hb : view.blockLength = g.blockLength)
    (hc : view.count = view.index + contents.length)
    (ha : ∀ content ∈ contents, admitsFields g.fields content)
    (hr : Room 0 0 (g.elementsLength contents) w) :
    g.StoresElements contents view (fun v => ∀ view' : GroupView,
      view'.blockLength = g.blockLength → view'.count = view'.index + contents.length →
        g.ShowsElements version contents
          (Walk.elements (fun base => walkFields base true g.fields) contents.length ⟨view', v⟩).1 ∧
        (Walk.elements (fun base => walkFields base true g.fields) contents.length
          ⟨view', v⟩).2.window = v.moved (g.elementsLength contents)) w := by
  induction contents generalizing view w with
  | nil => exact .nil fun v view' _ _ => ⟨.nil, rfl⟩
  | cons content rest hrest =>
    obtain ⟨it, hstore, hs, hreads⟩ := GroupOf.StoresElements.cons hlaid hb hc hr
      (fun hroom => ih w.position g.blockLength content (w.moved g.blockLength)
        (hversion ▸ hfields) hlaid (ha content List.mem_cons_self) hroom)
      (fun w₁ hversion₁ hcount hroom => hrest (view.entered w.position) w₁
        (hversion₁.trans hversion) hb hcount
        (fun content h => ha content (List.mem_cons_of_mem _ h)) hroom)
    refine ⟨it, hstore, hs, ?_⟩
    -- The reader has a view of its own, with the same block length and as many elements ahead.
    intro v hcopy view' hb' hc'
    obtain ⟨⟨hshows, hmoved⟩, hothers⟩ := hreads v hcopy
    have hposition := hcopy.position_eq
    have hsum : g.elementsLength (content :: rest) =
        g.blockLength + wireLengthFields g.fields content + g.elementsLength rest := rfl
    rw [List.length_cons] at hc'
    obtain ⟨hshowsRest, hmovedRest⟩ := hothers (view'.entered v.position) hb'
      (by simp only [GroupView.entered, hc']; omega)
    have hle : v.position + view'.blockLength ≤ v.limit := by
      have := hcopy.behind.le
      omega
    rw [List.length_cons, Walk.elements_succ_of_le (by omega) hle, hb', hposition, hmoved,
      Window.moved_moved]
    rw [hposition] at hshowsRest hmovedRest
    refine ⟨.cons ⟨_, rfl, hversion ▸ hshows⟩ hshowsRest, ?_⟩
    rw [hmovedRest, Window.moved_moved, hsum]

theorem GroupView.bind_of_since {f : Field} {g : GroupDef} {w : Window} {header : Bytes}
    (hsince : f.since ≤ w.version) (hg : g.MembersInside)
    (hh : w.read w.position g.dimension.encodedLength = .ok header) :
    bind f g (true && f.inVersion w.version) w =
      (.ok ⟨f, g, w.position, g.blockLengthMember.number header, g.numInGroupMember.number header,
        0, none, true⟩, w.moved g.dimension.encodedLength) := by
  have hvisible : (true && f.inVersion w.version) = true := decide_eq_true hsince
  rw [hvisible]
  exact bind_of_header hg hh f

theorem Field.store_group_headed {f : Field} {g : GroupDef} (hk : f.kind = .group g)
    {base size : Nat} {contents : List (List FieldContent)} {w : Window}
    (hsince : f.since ≤ w.version) (hg : g.WellFormed)
    (hcount : contents.length ≤ g.numInGroupMember.primitive.rawMax)
    (hr : Room base size (g.dimension.encodedLength + g.elementsLength contents) w) :
    ∃ view : GroupView, view.definition = g ∧ view.headerOffset = w.position ∧ view.index = 0 ∧
      let w₁ := view.headed (w.moved g.dimension.encodedLength) contents.length
      Stored [] 0 g.dimension.encodedLength w w₁ ∧ Room 0 0 (g.elementsLength contents) w₁ ∧
      ∀ it, Iteration.storeElements (fun base => storeFields base true g.fields) contents
          ⟨view.counted contents.length, w₁⟩ = (.ok ⟨⟩, it) →
        f.store base true (.elements contents) w = (.ok ⟨⟩, it.window) := by
  have hle : w.position + g.dimension.encodedLength ≤ w.limit := by
    have := hr.behind_le
    omega
  have hbind := GroupView.bind_of_since hsince hg.inside (Window.read_of_le hle)
  set view : GroupView := ⟨f, g, w.position, _, _, 0, none, true⟩
  set w₁ := view.headed (w.moved g.dimension.encodedLength) contents.length
  have hfit : view.headerOffset + view.definition.dimension.encodedLength ≤
      (w.moved g.dimension.encodedLength).bytes.length := Nat.le_trans hle hr.limit_le
  have hreset := GroupView.resetCount_of_le (g := view)
    (w := w.moved g.dimension.encodedLength) rfl rfl hcount hg.inside hle
  have hs₁ : Stored [] 0 g.dimension.encodedLength w w₁ :=
    ⟨rfl, rfl, rfl, GroupView.length_headed hg.inside hfit contents.length,
      fun start size _ hbehind => GroupView.slice_headed hg.inside hfit hbehind⟩
  refine ⟨view, rfl, rfl, rfl, hs₁, ?_, ?_⟩
  · exact Room.after ⟨by omega, hr.behind_le, hr.limit_le, hr.limit_le_max⟩ hs₁
  · intro it hstore
    rw [store_group hk hbind]
    simp only [Iteration.run, Action.bind_apply, hreset, hstore]

theorem Field.canRoundTrip_group (f : Field) (g : GroupDef) (hk : f.kind = .group g)
    (ih : CanRoundTripFields g.fields) : f.CanRoundTrip := by
  intro base size content w hwf _ hc hr
  obtain ⟨hsince, hg, hlaid, hfields⟩ := (wellFormed_group hk).mp hwf
  obtain ⟨contents, rfl, hcount, ha⟩ := admits_group hk hc
  have hlen : f.wireLength (.elements contents) =
    g.dimension.encodedLength + g.elementsLength contents := wireLength_group hk contents
  rw [hlen] at hr ⊢
  obtain ⟨view, rfl, hoffset, hindex, hs₁, hroom, hheaded⟩ :=
    store_group_headed hk hsince hg hcount hr
  set w₁ := view.headed (w.moved view.definition.dimension.encodedLength) contents.length with hw₁
  have hcounted : contents.length = view.index + contents.length := by
    rw [hindex, Nat.zero_add]
  obtain ⟨it, hstore, hs, hreads⟩ := storeElements_roundTrips hlaid hfields ih contents
    (view.counted contents.length) w₁ hs₁.version_eq rfl hcounted ha hroom
  refine ⟨it.window, hheaded it hstore, (hs₁.append hs).of_nil [f] base, ?_⟩
  intro v hv
  have hcopy := hv.nil 0
  have hheader : v.read v.position view.definition.dimension.encodedLength =
      .ok (w₁.bytes.slice w.position view.definition.dimension.encodedLength) := by
    rw [hcopy.position_eq]
    exact (Copied.left [] hcopy hs₁ hs (by simp) (by simp)).behind.read
  have hfit : view.headerOffset + view.definition.dimension.encodedLength ≤
      (w.moved view.definition.dimension.encodedLength).bytes.length := by
    rw [hoffset]
    exact hr.front_le
  -- The header is read back from the copy, with the block length and the count that were written.
  have hnumbers := GroupView.number_headed hg hcount hfit (by rw [hoffset, ← hw₁])
  rw [← hcopy.version_eq] at hsince
  have hbind := GroupView.bind_of_since hsince hg.inside hheader
  rw [hnumbers.1, hnumbers.2] at hbind
  obtain ⟨hshows, hmoved⟩ := hreads _ (Copied.right [] hcopy hs₁)
    ⟨f, view.definition, v.position, view.definition.blockLength, contents.length, 0, none, true⟩
    rfl (Nat.zero_add _).symm
  rw [walk_group_of_ok hk hbind, hmoved, Window.moved_moved]
  exact ⟨shows_group hk hshows, rfl⟩

theorem canRoundTrip_nil : CanRoundTripFields [] := by
  intro base size contents w _ _ ha _
  cases contents with
  | nil =>
    apply RoundTrips.of_nothing rfl
    intro v _
    exact ⟨trivial, rfl⟩
  | cons content contents => cases ha

theorem RoundTrips.cons {f : Field} {rest : List Field} {base size : Nat} {content : FieldContent}
    {contents : List FieldContent} {w : Window} {reads readsRest : Window → Prop}
    (hlaid : LaidOut (f :: rest) size)
    (hr : Room base size (wireLengthFields (f :: rest) (content :: contents)) w)
    (hf : (f.isStored → f.offset + f.extent ≤ size) →
      Room base size (f.wireLength content) w →
      RoundTrips [f] base (f.wireLength content) (f.store base true content) reads w)
    (hrest : ∀ w₁, w₁.version = w.version → LaidOut rest size →
      Room base size (wireLengthFields rest contents) w₁ →
      RoundTrips rest base (wireLengthFields rest contents) (storeFields base true rest contents)
        readsRest w₁) :
    RoundTrips (f :: rest) base (wireLengthFields (f :: rest) (content :: contents))
      (storeFields base true (f :: rest) (content :: contents))
      (fun v => reads v ∧ readsRest (v.moved (f.wireLength content))) w := by
  obtain ⟨hapart, hapartRest⟩ := List.pairwise_cons.mp hlaid.apart
  have hlen : wireLengthFields (f :: rest) (content :: contents) =
    f.wireLength content + wireLengthFields rest contents := rfl
  rw [hlen] at hr ⊢
  have hbefore : ∀ g ∈ f :: rest, g.isStored → base + g.offset + g.extent ≤ w.position := by
    intro g hg hs
    have := hlaid.inside g hg hs
    have := hr.block_le
    omega
  obtain ⟨w₁, hstore, hs₁, hreads⟩ :=
    hf (hlaid.inside f List.mem_cons_self) (hr.mono (Nat.le_add_right _ _))
  obtain ⟨w₂, hstoreRest, hs₂, hreadsRest⟩ := hrest w₁ hs₁.version_eq
    ⟨fun g hg => hlaid.inside g (List.mem_cons_of_mem f hg), hapartRest⟩ (hr.after hs₁)
  refine ⟨w₂, ?_, hs₁.append hs₂, ?_⟩
  · rw [storeFields, Action.bind_of_ok hstore]
    exact hstoreRest
  -- Neither step writes where the other has, so a copy of both is a copy of each.
  · intro v hcopy
    have hapart' : ∀ g ∈ [f], g.isStored → ∀ h ∈ rest, h.isStored →
        Bytes.Apart g.offset g.extent h.offset h.extent := by
      intro g hg hgs h hh hhs
      rw [List.mem_singleton.mp hg] at hgs ⊢
      exact hapart h hh hgs hhs
    exact ⟨hreads v (Copied.left [f] hcopy hs₁ hs₂ hbefore hapart'),
      hreadsRest _ (Copied.right [f] hcopy hs₁)⟩

theorem canRoundTrip_cons (f : Field) (rest : List Field) (hf : f.CanRoundTrip)
    (ih : CanRoundTripFields rest) : CanRoundTripFields (f :: rest) := by
  intro base size contents w hwf hlaid ha hr
  cases contents with
  | nil => cases ha
  | cons content contents =>
    obtain ⟨hwf, hwfRest⟩ := wellFormedFields_cons.mp hwf
    obtain ⟨ha, haRest⟩ := ha
    have hrest : ∀ w₁, w₁.version = w.version → LaidOut rest size →
        Room base size (wireLengthFields rest contents) w₁ →
        RoundTrips rest base (wireLengthFields rest contents) (storeFields base true rest contents)
          (fun v => showsFields w.version rest contents (walkFields base true rest v).1 ∧
            (walkFields base true rest v).2 = v.moved (wireLengthFields rest contents)) w₁ := by
      intro w₁ hversion hlaidRest hroom
      rw [← hversion]
      exact ih base size contents w₁ (hversion ▸ hwfRest) hlaidRest haRest hroom
    apply (RoundTrips.cons hlaid hr
      (fun hin hroom => hf base size content w hwf hin ha hroom) hrest).mono
    rintro v ⟨⟨hshows, hmoved⟩, hshowsRest, hmovedRest⟩
    rw [walkFields_cons, hmoved, hmovedRest, Window.moved_moved]
    exact ⟨⟨hshows, hshowsRest⟩, rfl⟩

theorem canRoundTrip : TableInduction Field.CanRoundTrip CanRoundTripFields where
  type := Field.canRoundTrip_type
  enum := Field.canRoundTrip_enum
  set := Field.canRoundTrip_set
  composite := Field.canRoundTrip_composite
  group := Field.canRoundTrip_group
  data := Field.canRoundTrip_data
  nil := canRoundTrip_nil
  cons := canRoundTrip_cons

theorem Market.wellFormed_of_mem {m : MessageDef} (h : m ∈ Market.messages) : m.wellFormed := by
  have hall : ∀ m ∈ Market.messages, m.wellFormed := by decide +kernel
  exact hall m h

def Market.Snapshot.sample : List FieldContent :=
  [.value (.scalar (.uint 7)), .value (.scalar (.uint 12)), .value (.text [0x41, 0x42]),
    .value (.array ⟨.int32, [1, 0, 0, 0, 9, 0, 0, 0]⟩), .none,
    .elements [[.members [.value (.scalar (.int 125)), .none], .value (.scalar (.int (-40))),
      .value (.scalar (.uint 3)), .raw 0x31, .value (.scalar (.uint 5)),
      .value (.scalar (.uint 1))]],
    .payload [0x68, 0x69]]

theorem Market.Snapshot.admits_sample : admitsFields definition.fields sample := by
  refine ⟨?_, ?_, ?_, ?_, rfl, ?_, ?_, trivial⟩
  · exact ⟨by decide, by decide, by decide, by decide⟩
  · exact ⟨by decide, by decide, by decide, by decide⟩
  · exact ⟨by decide, by decide, by decide, by decide⟩
  · exact ⟨by decide, by decide, by decide, rfl, by decide⟩
  · refine ⟨by decide, ?_⟩
    intro element helement
    rw [List.mem_singleton.mp helement]
    refine ⟨⟨by decide, ⟨by decide, by decide, ?_⟩, rfl, trivial⟩, ?_, ?_, ?_, ?_, ?_, trivial⟩
    · exact ⟨by decide, by decide, by decide, by decide⟩
    · exact ⟨by decide, by decide, by decide, by decide, by decide, by decide⟩
    · exact ⟨by decide, by decide, by decide, by decide⟩
    · exact ⟨by decide, by decide⟩
    · exact ⟨by decide, by decide, by decide, by decide⟩
    · exact ⟨by decide, by decide, by decide, by decide⟩
  · exact ⟨by decide, by decide⟩

/-- A frame written with content that suits its schema is read back with that content, by a walk
that ends where the writing ended. -/
theorem Message.walk_store (m : MessageDef) (hm : m.wellFormed) (contents : List FieldContent)
    (hc : admitsFields m.fields contents) (bytes : Bytes) (offset limit : Nat)
    (hbytes : bytes.length ≤ Window.maxPosition) (hlimit : limit ≤ bytes.length)
    (hroom : offset + MessageHeader.size + m.blockLength + wireLengthFields m.fields contents ≤
      limit) :
    ∃ stop bytes', Message.store offset limit m contents bytes = (.ok stop, bytes') ∧
      ∃ decoded, readFrame bytes' offset limit m = .ok decoded ∧
        showsFields m.schema.version m.fields contents (decoded.body.walk decoded.window).1 ∧
        (decoded.body.walk decoded.window).2.position = stop := by
  obtain ⟨hblock, hlaid, hfields⟩ : m.blockLength < 2 ^ 16 ∧ LaidOut m.fields m.blockLength ∧
      wellFormedFields m.schema.version m.fields := by
    simpa only [MessageDef.wellFormed, Bool.and_eq_true, decide_eq_true_eq, and_assoc] using hm
  have hheader := MessageHeader.length_toBytes (.ofMessage m)
  have hlength : (bytes.overwrite offset (MessageHeader.ofMessage m).toBytes).length =
    bytes.length := Bytes.length_overwrite (by omega)
  have hmax : limit ≤ Window.maxPosition := Nat.le_trans hlimit hbytes
  have hwrite : writeFrame offset limit m bytes = _ :=
    writeFrame_of_le hlimit (by omega) hmax
  set w : Window := ⟨bytes.overwrite offset (MessageHeader.ofMessage m).toBytes, limit,
    offset + MessageHeader.size + m.blockLength, m.schema.version, hmax⟩ with hw
  obtain ⟨w', hstore, hs, hreads⟩ := canRoundTrip.table m.fields (offset + MessageHeader.size)
    m.blockLength contents w hfields hlaid hc
    ⟨Nat.le_refl _, hroom, by rw [hw, hlength]; exact hlimit, hmax⟩
  have hbytes' : w'.bytes.length = bytes.length := hs.size_eq.trans hlength
  -- The fields and what is behind them lie after the header, which is found as it was written.
  have hslice : w'.bytes.slice offset MessageHeader.size = (MessageHeader.ofMessage m).toBytes := by
    rw [hs.frame, hw, ← hheader, Bytes.slice_overwrite (by omega)]
    · intro f hf hstored
      unfold Bytes.Apart
      omega
    · unfold Bytes.Apart
      simp only [hw]
      omega
  have hread : readFrame w'.bytes offset limit m = _ :=
    readFrame_of_header (by omega) (by omega) hmax hblock hslice
  refine ⟨w'.position, w'.bytes, ?_, _, hread, ?_⟩
  · have hblockStore : (Block.mk (offset + MessageHeader.size) m.fields true).store contents
        ⟨bytes.overwrite offset (MessageHeader.ofMessage m).toBytes, w.limit, w.position,
          w.version, hmax⟩ = (.ok ⟨⟩, w') := hstore
    simp only [Message.store, Action.bind_of_ok hwrite, Action.onPart_apply, Action.bind_apply,
      onWindow, body, hblockStore, Action.get_apply, Action.pure_apply, position]
  · have hfound : Copied m.fields (offset + MessageHeader.size)
        (wireLengthFields m.fields contents) w w'
        ⟨w'.bytes, limit, offset + MessageHeader.size + m.blockLength, m.schema.version, hmax⟩ := by
      refine ⟨rfl, rfl, ?_, hroom, rfl⟩
      intro f hf hstored
      have := hlaid.inside f hf hstored
      exact ⟨by simp only; omega, rfl⟩
    obtain ⟨hshows, hmoved⟩ := hreads _ hfound
    refine ⟨hshows, ?_⟩
    rw [hs.position_eq]
    exact congrArg Window.position hmoved

theorem Message.walk_store_snapshot :
    ∃ stop bytes', Message.store 3 90 Market.Snapshot.definition Market.Snapshot.sample
        (List.replicate 100 0) = (.ok stop, bytes') ∧
      ∃ decoded, readFrame bytes' 3 90 Market.Snapshot.definition = .ok decoded ∧
        showsFields 2 Market.Snapshot.definition.fields Market.Snapshot.sample
          (decoded.body.walk decoded.window).1 ∧
        (decoded.body.walk decoded.window).2.position = stop :=
  Message.walk_store Market.Snapshot.definition
    (Market.wellFormed_of_mem (List.mem_cons_of_mem _ List.mem_cons_self)) Market.Snapshot.sample
    Market.Snapshot.admits_sample (List.replicate 100 0) 3 90 (by decide) (by decide)
    (by decide +kernel)

end SimpleBinary
