import SimpleBinary.Proofs.Blockwise
import SimpleBinary.Proofs.Passage

/-!
The blocks that are open in a session, which are the body of the message and the element that each
group is at. No two of them share a byte, all of them lie before the position, and going onward
changes no byte of them.
-/

namespace SimpleBinary

/-- Whose block it is: the body of the message, or the element that a group is at. -/
inductive Owner where
  | body
  | element (group : Nat)
  deriving DecidableEq

mutual

def Place.owner? : Place → Option Owner
  | .body => some .body
  | .element group => some (.element group)
  | .members spot => spot.owner?

def Spot.owner? : Spot → Option Owner
  | .header => none
  | .field place _ => place.owner?

end

structure Extent where
  base : Nat
  length : Nat
  fields : List Field

def Extent.stop (e : Extent) : Nat :=
  e.base + e.length

def GroupView.extent? (g : GroupView) : Option Extent :=
  g.current.map fun base => ⟨base, g.blockLength, g.definition.fields⟩

namespace Session

def extent? (s : Session) : Owner → Option Extent
  | .body => some ⟨s.message.offset, s.message.blockLength, s.message.definition.fields⟩
  | .element g => s.groups[g]?.bind GroupView.extent?

def visits (s : Session) : Owner → Nat
  | .body => 0
  | .element g => (s.groups[g]?.map GroupView.index).getD 0

mutual

def ListsPlace (s : Session) : Place → Prop
  | .body | .element _ => True
  | .members spot => s.Lists spot

def Lists (s : Session) : Spot → Prop
  | .header => True
  | .field place selector => s.ListsPlace place ∧ ∀ block f, s.block place = .ok block →
    selector.fieldOf block = .ok f → f ∈ block.fields

end

theorem listsPlace_body (s : Session) : s.ListsPlace .body :=
  trivial

theorem listsPlace_element (s : Session) (g : Nat) : s.ListsPlace (.element g) :=
  trivial

theorem lists_name {s : Session} {place : Place} (h : s.ListsPlace place) (name : String) :
    s.Lists (.field place (.name name)) := by
  refine ⟨h, ?_⟩
  intro block f _ hf
  simp only [Selector.fieldOf, Block.fieldNamed] at hf
  split at hf
  next hfound =>
    cases hf
    exact List.mem_of_find?_eq_some hfound
  next => cases hf

/-- The spot is in the block of the owner, and the block has room for the fixed fields of its
table. -/
structure Reaches (s : Session) (spot : Spot) (owner : Owner) (e : Extent) : Prop where
  owner_eq : spot.owner? = some owner
  extent_eq : s.extent? owner = some e
  inside : InBlockFields s.message.version e.length e.fields 0
  listed : s.Lists spot

theorem Agrees.visits_eq {places : Nat → Prop} {s s' : Session} (h : s.Agrees places s')
    (owner : Owner) : s'.visits owner = s.visits owner := by
  cases owner with
  | body => rfl
  | element g => simp only [visits, h.groups_eq]

variable {s t : Session} {owner : Owner} {e : Extent}

theorem block_body (he : s.extent? .body = some e) :
    s.block .body = .ok ⟨e.base, e.fields, true⟩ := by
  cases he
  rfl

theorem block_element {g : Nat} (he : s.extent? (.element g) = some e) :
    s.block (.element g) = .ok ⟨e.base, e.fields, true⟩ := by
  obtain ⟨view, hview, he⟩ := Option.bind_eq_some_iff.mp he
  obtain ⟨base, hbase, rfl⟩ := Option.map_eq_some_iff.mp he
  simp only [block, groupAt, hview, Action.ok_bind, GroupView.element, hbase]

mutual

theorem block_of_extent (hs : s.extent? owner = some e) (ht : t.extent? owner = some e)
    (hv : t.message.version = s.message.version) : ∀ place : Place, place.owner? = some owner →
    t.block place = s.block place
  | .body, h => by
    cases h
    rw [block_body hs, block_body ht]
  | .element g, h => by
    cases h
    rw [block_element hs, block_element ht]
  | .members spot, h => by
    simp only [block, bind_of_extent hs ht hv spot h]

theorem bind_of_extent (hs : s.extent? owner = some e) (ht : t.extent? owner = some e)
    (hv : t.message.version = s.message.version) : ∀ spot : Spot, spot.owner? = some owner →
    t.bind spot = s.bind spot
  | .header, h => by cases h
  | .field place selector, h => by
    simp only [bind, block_of_extent hs ht hv place h, hv]

end

mutual

theorem listsPlace_of_extent (hs : s.extent? owner = some e) (ht : t.extent? owner = some e)
    (hv : t.message.version = s.message.version) : ∀ place : Place, place.owner? = some owner →
    s.ListsPlace place → t.ListsPlace place
  | .body, _, _ => trivial
  | .element _, _, _ => trivial
  | .members spot, h, hl => lists_of_extent hs ht hv spot h hl

theorem lists_of_extent (hs : s.extent? owner = some e) (ht : t.extent? owner = some e)
    (hv : t.message.version = s.message.version) : ∀ spot : Spot, spot.owner? = some owner →
    s.Lists spot → t.Lists spot
  | .header, _, _ => trivial
  | .field place selector, h, hl => by
    refine ⟨listsPlace_of_extent hs ht hv place h hl.1, ?_⟩
    rw [block_of_extent hs ht hv place h]
    exact hl.2

end

theorem Reaches.of_extent {spot : Spot} (h : s.Reaches spot owner e)
    (ht : t.extent? owner = some e) (hv : t.message.version = s.message.version) :
    t.Reaches spot owner e where
  owner_eq := h.owner_eq
  extent_eq := ht
  inside := by
    rw [hv]
    exact h.inside
  listed := lists_of_extent h.extent_eq ht hv spot h.owner_eq h.listed

end Session

theorem inBlock_of_mem {version : UInt16} {length start : Nat} {fields : List Field} {f : Field}
    (h : InBlockFields version length fields start) (hf : f ∈ fields) :
    f.InBlock version length start := by
  induction fields with
  | nil => cases hf
  | cons first rest ih =>
    rcases List.mem_cons.mp hf with rfl | hf
    · exact h.1
    · exact ih h.2 hf

namespace Session

variable {s : Session} {owner : Owner} {e : Extent}

mutual

theorem block_inside (he : s.extent? owner = some e)
    (hin : InBlockFields s.message.version e.length e.fields 0) :
    ∀ place : Place, place.owner? = some owner → s.ListsPlace place → ∀ block,
      s.block place = .ok block → ∃ start, wordOf block.base = wordOf (e.base + start) ∧
        (block.visible → InBlockFields s.message.version e.length block.fields start)
  | .body, h, _, block, hb => by
    cases h
    rw [block_body he] at hb
    cases hb
    exact ⟨0, rfl, fun _ => hin⟩
  | .element g, h, _, block, hb => by
    cases h
    rw [block_element he] at hb
    cases hb
    exact ⟨0, rfl, fun _ => hin⟩
  -- The members of a composite are counted from the block that the composite is in.
  | .members spot, h, hl, block, hb => by
    obtain ⟨b, hbind, hb⟩ := Action.except_bind_eq_ok hb
    obtain ⟨view, hview, hb⟩ := Action.except_bind_eq_ok hb
    obtain ⟨start, enclosed, hplace, hfield⟩ := bind_inside he hin spot h hl b hbind
    cases hb
    unfold CompositeView.ofBinding at hview
    cases hk : b.field.kind with
    | composite c =>
      rw [hk] at hview
      cases hview
      refine ⟨start + b.field.offset, ?_, ?_⟩
      · have hoffset : b.offset = wordOf (e.base + start + b.field.offset) :=
          congrArg Binding.offset hplace
        rw [CompositeView.members, hoffset, wordOf_of_lt (wordOf_lt _), Nat.add_assoc]
      · intro hv
        have hvisible : (enclosed && b.field.inVersion s.message.version) = true := by
          rw [← hv]
          exact (congrArg Binding.visible hplace).symm
        obtain ⟨henclosed, hsince⟩ := SameBlock.visible_of_and hvisible
        exact (Field.inBlock_composite hk).mp (hfield henclosed) hsince
    | _ =>
      rw [hk] at hview
      cases hview

theorem bind_inside (he : s.extent? owner = some e)
    (hin : InBlockFields s.message.version e.length e.fields 0) :
    ∀ spot : Spot, spot.owner? = some owner → s.Lists spot → ∀ b,
      s.bind spot = .ok b → b.InBlock s.message.version e.base e.length
  | .header, h, _, _, _ => by cases h
  | .field place selector, h, hl, b, hb => by
    obtain ⟨block, hblock, hb⟩ := Action.except_bind_eq_ok hb
    obtain ⟨f, hf, hb⟩ := Action.except_bind_eq_ok hb
    obtain ⟨start, hbase, hfields⟩ := block_inside he hin place h hl.1 block hblock
    cases hb
    refine ⟨start, block.visible, ?_, ?_⟩
    · rw [← Field.bindAt_wordOf, ← hbase, Field.bindAt_wordOf]
      rfl
    · intro hv
      exact inBlock_of_mem (hfields hv) (hl.2 block f hblock hf)

end

end Session

structure Session.SameExtent (s t : Session) (owner : Owner) (e : Extent) : Prop where
  extent_eq : t.extent? owner = some e
  block : SameBlock s.window t.window e.base e.base e.length
  limit_eq : t.window.limit = s.window.limit

theorem Operation.field_blockwise {α : Type} {operation : FieldOperation α} {s : Session}
    {spot : Spot} {owner : Owner} {e : Extent} (h : s.Reaches spot owner e)
    (hs : ∀ b, s.bind spot = .ok b → operation.Suits b.field)
    (hl : e.stop ≤ s.window.limit) :
    ∃ start part, e.base ≤ start ∧ start + part.length ≤ e.stop ∧
      ∀ t, s.SameExtent t owner e →
        ((Operation.field spot operation).run t).1 = ((Operation.field spot operation).run s).1 ∧
        ((Operation.field spot operation).run t).2 =
          t.withWindow (t.window.written start part) := by
  have hbind {t : Session} (ht : s.SameExtent t owner e) : t.bind spot = s.bind spot :=
    Session.bind_of_extent h.extent_eq ht.extent_eq ht.block.version_eq spot h.owner_eq
  have hrun (t : Session) : (Operation.field spot operation).run t =
      (liftM (t.bind spot) >>= fun b => Session.onWindow (operation.run b) :
        Action Session α) t := rfl
  cases hb : s.bind spot with
  | error error =>
    refine ⟨e.base, [], Nat.le_refl _, Nat.le_add_right _ _, ?_⟩
    intro t ht
    rw [hrun, hrun, hbind ht, hb, Window.written, Bytes.overwrite_nil]
    exact ⟨rfl, rfl⟩
  | ok b =>
    have hinside := Session.bind_inside h.extent_eq h.inside spot h.owner_eq h.listed b hb
    obtain ⟨start, part, hstart, hstop, hsame⟩ := operation.blockwise hinside (hs b hb) hl
    refine ⟨start, part, hstart, hstop, ?_⟩
    intro t ht
    obtain ⟨hresult, hafter⟩ := hsame t.window ht.block ht.limit_eq
    rw [hrun, hrun, hbind ht, hb]
    refine ⟨hresult, ?_⟩
    rw [← hafter]
    rfl

namespace GroupView

variable {g g' : GroupView}

theorem visible_eq (h : g.header = g'.header) : g.visible = g'.visible :=
  (Prod.mk.inj h).1

theorem headerOffset_eq (h : g.header = g'.header) : g.headerOffset = g'.headerOffset :=
  (Prod.mk.inj (Prod.mk.inj h).2).1

theorem headerStop_eq (h : g.header = g'.header) : g.headerStop = g'.headerStop := by
  rw [headerStop, headerStop, headerOffset_eq h, (Prod.mk.inj (Prod.mk.inj h).2).2]

end GroupView

structure Extent.Settled (e : Extent) (s : Session) : Prop where
  stop_le : e.stop ≤ s.window.position
  apart (view : GroupView) (hg : view ∈ s.groups) (hv : view.visible = true) :
    e.stop ≤ view.headerOffset ∨ view.headerStop ≤ e.base

namespace Session

/-- The open blocks and the headers lie before the position, and none of them share a byte. -/
structure Spread (s : Session) : Prop where
  sound : s.window.Sound
  headers (view : GroupView) (hg : view ∈ s.groups) (hv : view.visible = true) :
    view.headerStop ≤ s.window.position
  settled (owner : Owner) (e : Extent) (he : s.extent? owner = some e) : e.Settled s
  apart (owner owner' : Owner) (hne : owner ≠ owner') (e e' : Extent)
    (he : s.extent? owner = some e) (he' : s.extent? owner' = some e') :
    Bytes.Apart e.base e.length e'.base e'.length

theorem extent?_element {s : Session} {g : Nat} {e : Extent}
    (h : s.extent? (.element g) = some e) :
    ∃ view, s.groups[g]? = some view ∧ view.extent? = some e :=
  Option.bind_eq_some_iff.mp h

section

variable {s t : Session}

theorem Regrouped.header (h : Regrouped s t) {view : GroupView} (hg : view ∈ t.groups) :
    (∃ old ∈ s.groups, view.header = old.header) ∨
      (view.visible = true →
        s.window.position ≤ view.headerOffset ∧ view.headerStop ≤ t.window.position) := by
  cases h with
  | same h =>
    rw [h] at hg
    exact .inl ⟨view, hg, rfl⟩
  | bound added h hcurrent hheader =>
    rw [h] at hg
    rcases List.mem_append.mp hg with hold | hnew
    · exact .inl ⟨view, hold, rfl⟩
    · obtain rfl := List.mem_singleton.mp hnew
      exact .inr hheader
  | entered g old base index hview h hindex hbase hstop =>
    rw [h] at hg
    rcases List.mem_or_eq_of_mem_set hg with hold | rfl
    · exact .inl ⟨view, hold, rfl⟩
    · exact .inl ⟨old, List.mem_of_getElem? hview, rfl⟩
  | recounted g old blockLength count hview h =>
    rw [h] at hg
    rcases List.mem_or_eq_of_mem_set hg with hold | rfl
    · exact .inl ⟨view, hold, rfl⟩
    · exact .inl ⟨old, List.mem_of_getElem? hview, rfl⟩

theorem Regrouped.current (h : Regrouped s t) :
    ∃ fresh, ∀ (g : Nat) (view : GroupView), t.groups[g]? = some view → view.current ≠ none →
      s.groups[g]? = some view ∨ g = fresh ∧ ∃ (old : GroupView) (base index : Nat),
        s.groups[g]? = some old ∧ t.groups = s.groups.set g view ∧
        view = { old with current := some base, index } ∧ old.index < index ∧
        s.window.position ≤ base ∧ base + old.blockLength ≤ t.window.position := by
  cases h with
  | same h =>
    refine ⟨0, ?_⟩
    intro g view hview _
    rw [h] at hview
    exact .inl hview
  -- A group just bound is at no element yet.
  | bound added h hcurrent _ =>
    refine ⟨0, ?_⟩
    intro g view hview hne
    rw [h, List.getElem?_append] at hview
    split at hview
    · exact .inl hview
    · obtain rfl := List.mem_singleton.mp (List.mem_of_getElem? hview)
      exact absurd hcurrent hne
  | entered fresh old base index hold h hindex hbase hstop =>
    refine ⟨fresh, ?_⟩
    intro g view hview _
    rw [h, List.getElem?_set] at hview
    split at hview
    next hg =>
      subst hg
      split at hview
      · cases hview
        exact .inr ⟨rfl, old, base, index, hold, h, rfl, hindex, hbase, hstop⟩
      · cases hview
    next => exact .inl hview
  | recounted fresh old blockLength count hold h =>
    refine ⟨fresh, ?_⟩
    intro g view hview hne
    rw [h, List.getElem?_set] at hview
    split at hview
    next hg =>
      split at hview
      · cases hview
        exact absurd rfl hne
      · cases hview
    next => exact .inl hview

theorem Passage.extent (h : Passage s t) : ∃ fresh, ∀ owner e, t.extent? owner = some e →
    s.extent? owner = some e ∨ owner = fresh ∧ t.visits owner ≠ s.visits owner ∧
      s.window.position ≤ e.base ∧ e.stop ≤ t.window.position ∧
      ∀ view ∈ t.groups, ∃ old ∈ s.groups, view.header = old.header := by
  obtain ⟨fresh, hcurrent⟩ := h.groups.current
  refine ⟨.element fresh, ?_⟩
  rintro (_ | g) e he
  · have hbody : t.extent? .body = s.extent? .body := by
      simp only [extent?, h.message_eq]
    exact .inl (hbody ▸ he)
  · obtain ⟨view, hview, he⟩ := extent?_element he
    obtain ⟨base, hbase, rfl⟩ := Option.map_eq_some_iff.mp he
    rcases hcurrent g view hview (by simp [hbase]) with
      hold | ⟨rfl, old, base', index, hold, hset, rfl, hindex, hle, hstop⟩
    · exact .inl (Option.bind_eq_some_iff.mpr ⟨view, hold, he⟩)
    · cases hbase
      refine .inr ⟨rfl, ?_, hle, hstop, ?_⟩
      · simp only [visits, hview, hold, Option.map_some, Option.getD_some]
        omega
      · intro view' hg
        rw [hset] at hg
        rcases List.mem_or_eq_of_mem_set hg with hmem | rfl
        · exact ⟨view', hmem, rfl⟩
        · exact ⟨old, List.mem_of_getElem? hold, rfl⟩

theorem Passage.extent_of_visits (h : Passage s t) {owner : Owner} {e : Extent}
    (he : t.extent? owner = some e) (hv : t.visits owner = s.visits owner) :
    s.extent? owner = some e := by
  obtain ⟨fresh, hextent⟩ := h.extent
  rcases hextent owner e he with hold | ⟨-, hne, -⟩
  · exact hold
  · exact absurd hv hne

theorem Passage.position_le (h : Passage s t) : s.window.position ≤ t.window.position := by
  rcases h.onward with h | ⟨_, _, _, _, h⟩ <;> exact h.position_le

theorem Passage.limit_eq (h : Passage s t) : t.window.limit = s.window.limit := by
  rcases h.onward with h | ⟨_, _, _, _, h⟩ <;> exact h.limit_eq

theorem Passage.version_eq (h : Passage s t) : t.window.version = s.window.version := by
  rcases h.onward with h | ⟨_, _, _, _, h⟩ <;> exact h.version_eq

theorem Passage.length_eq (h : Passage s t) :
    t.window.bytes.length = s.window.bytes.length := by
  rcases h.onward with h | ⟨_, _, _, _, h⟩ <;> exact h.length_eq

theorem Passage.sound (h : Passage s t) (hs : s.window.Sound) : t.window.Sound := by
  rcases h.onward with h | ⟨_, _, _, _, h⟩ <;> exact h.sound hs

theorem Passage.settled (h : Passage s t) {e : Extent} (he : e.Settled s) : e.Settled t where
  stop_le := Nat.le_trans he.stop_le h.position_le
  apart view hg hv := by
    rcases h.groups.header hg with ⟨old, hold, hsame⟩ | hnew
    · rw [GroupView.headerOffset_eq hsame, GroupView.headerStop_eq hsame]
      exact he.apart old hold (GroupView.visible_eq hsame ▸ hv)
    · exact .inl (Nat.le_trans he.stop_le (hnew hv).1)

theorem Passage.getElem?_eq (h : Passage s t) {e : Extent} (he : e.Settled s) {i : Nat}
    (hl : e.base ≤ i) (hr : i < e.stop) : t.window.bytes[i]? = s.window.bytes[i]? := by
  have hstop := he.stop_le
  rcases h.onward with honward | ⟨view, hg, hv, hplace, honward⟩
  · exact honward.getElem?_eq i (Nat.lt_of_lt_of_le hr hstop)
  · apply honward.getElem?_eq
    rcases he.apart view hg hv with hbefore | hbehind
    · exact Nat.lt_of_lt_of_le hr hbefore
    · omega

theorem Passage.sameBlock (h : Passage s t) {e : Extent} (he : e.Settled s)
    (hl : e.stop ≤ s.window.limit) : SameBlock s.window t.window e.base e.base e.length where
  version_eq := h.version_eq
  stop_lt := s.window.lt_of_le_limit hl
  stop_lt' := s.window.lt_of_le_limit hl
  read_eq start size hle := by
    have hr : e.base + start + size ≤ e.stop := by
      unfold Extent.stop
      omega
    rw [Window.read_of_le (Nat.le_trans hr hl),
      Window.read_of_le (by rw [h.limit_eq]; exact Nat.le_trans hr hl)]
    congr 1
    apply List.ext_getElem?
    intro i
    rw [Bytes.getElem?_slice, Bytes.getElem?_slice]
    split
    next hi => exact h.getElem?_eq he (by omega) (by omega)
    next => rfl

theorem Passage.spread (h : Passage s t) (hs : s.Spread) : t.Spread where
  sound := h.sound hs.sound
  headers view hg hv := by
    rcases h.groups.header hg with ⟨old, hold, hsame⟩ | hnew
    · rw [GroupView.headerStop_eq hsame]
      exact Nat.le_trans (hs.headers old hold (GroupView.visible_eq hsame ▸ hv)) h.position_le
    · exact (hnew hv).2
  settled owner e he := by
    obtain ⟨fresh, hextent⟩ := h.extent
    rcases hextent owner e he with hold | ⟨-, -, hbase, hstop, hheaders⟩
    · exact h.settled (hs.settled owner e hold)
    · refine ⟨hstop, ?_⟩
      intro view hg hv
      obtain ⟨old, hold, hsame⟩ := hheaders view hg
      rw [GroupView.headerStop_eq hsame]
      exact .inr (Nat.le_trans (hs.headers old hold (GroupView.visible_eq hsame ▸ hv)) hbase)
  apart owner owner' hne e e' he he' := by
    obtain ⟨fresh, hextent⟩ := h.extent
    rcases hextent owner e he with hold | ⟨hfresh, -, hbase, -⟩ <;>
      rcases hextent owner' e' he' with hold' | ⟨hfresh', -, hbase', -⟩
    · exact hs.apart owner owner' hne e e' hold hold'
    · exact .inr (.inr (.inl (Nat.le_trans (hs.settled owner e hold).stop_le hbase')))
    · exact .inr (.inr (.inr (Nat.le_trans (hs.settled owner' e' hold').stop_le hbase)))
    · exact absurd (hfresh.trans hfresh'.symm) hne

end

end Session

end SimpleBinary
