import Mathlib.Tactic.Set
import SimpleBinary.Market.Schema
import SimpleBinary.Proofs.Confinement
import SimpleBinary.Proofs.Reach

namespace SimpleBinary

namespace Message

structure Twins (a b : Surroundings) (m m' : Message) : Prop where
  window : SimpleBinary.Twins a b m.window m'.window
  definition_eq : m'.definition = m.definition
  offset_eq : m'.offset = m.offset
  header_eq : m'.headerOffset = m.headerOffset
  blockLength_eq : m'.blockLength = m.blockLength
  offset_le : a.start ≤ m.offset
  stop_le : m.offset + m.blockLength ≤ a.stop
  header_le : ∀ offset ∈ m.headerOffset, a.start ≤ offset ∧ offset ≤ a.stop

variable {a b : Surroundings} {m m' : Message}

namespace Twins

theorem withWindow (h : Twins a b m m') {w w' : Window} (hw : SimpleBinary.Twins a b w w') :
    Twins a b { m with window := w } { m' with window := w' } :=
  { h with window := hw }

theorem framed (h : Twins a b m m') {offset : Nat} (ho : a.start ≤ offset) (hl : offset ≤ a.stop) :
    Twins a b { m with headerOffset := some offset } { m' with headerOffset := some offset } := by
  refine { h with header_eq := rfl, header_le := ?_ }
  rintro _ ⟨⟩
  exact ⟨ho, hl⟩

theorem rewind (h : Twins a b m m') : Twins a b m.rewind m'.rewind := by
  have hs : a.start ≤ m.offset + m.blockLength := Nat.le_add_right_of_le h.offset_le
  have hstop : m'.offset + m'.blockLength = m.offset + m.blockLength := by
    rw [h.offset_eq, h.blockLength_eq]
  unfold Message.rewind
  rw [hstop]
  exact h.withWindow (Confined.seek hs _ _ h.window).related

theorem position_eq (h : Twins a b m m') : m'.position = m.position :=
  h.window.position_eq

end Twins

theorem alike_skip (h : Twins a b m m')
    (hword : a.stop + spanFields m.definition.fields < UInt64.size) :
    Alike (Twins a b) skip skip m m' := by
  unfold skip
  refine .bind_of (.change h.rewind) ?_
  rintro _ m m' ⟨⟩ h
  apply Alike.get_bind
  rw [h.definition_eq]
  apply Alike.bind
  · exact .onPart (confined_skipFields.table m.rewind.definition.fields hword _ _ h.window)
      fun _ _ hw => h.withWindow hw
  · intro _ m m' h
    apply Alike.get_bind
    rw [encodedLength, encodedLength, h.position_eq, h.offset_eq]
    exact .pure h _

end Message

namespace Session

structure Twins (a b : Surroundings) (s s' : Session) : Prop where
  message : Message.Twins a b s.message s'.message
  groups_eq : s'.groups = s.groups
  between : ∀ g ∈ s.groups, g.Between a

variable {a b : Surroundings} {s s' : Session}

namespace Twins

theorem groupAt_eq (h : Twins a b s s') (group : Nat) : s'.groupAt group = s.groupAt group := by
  rw [groupAt, groupAt, h.groups_eq]

theorem between_of_groupAt (h : Twins a b s s') {group : Nat} {view : GroupView}
    (hg : s.groupAt group = .ok view) : view.Between a :=
  h.between view (mem_of_groupAt hg)

mutual

theorem block_eq (h : Twins a b s s') : ∀ place, s'.block place = s.block place
  | .body => by
    simp only [block, Message.body, h.message.offset_eq, h.message.definition_eq]
  | .element group => by
    simp only [block, h.groupAt_eq group]
  | .members spot => by
    simp only [block, bind_eq h spot]

theorem bind_eq (h : Twins a b s s') : ∀ spot, s'.bind spot = s.bind spot
  | .header => by
    simp only [bind, Message.header, h.message.header_eq]
  | .field place selector => by
    simp only [bind, block_eq h place, Message.version, h.message.window.version_eq]

end

variable {n : Nat}

mutual

theorem block_le (h : Twins a b s s') (hn : s.Spans n) : ∀ place block,
    s.block place = .ok block → a.stop + n + place.brought < UInt64.size →
    a.start ≤ block.base ∧ block.base + spanFields block.fields ≤ a.stop + n + place.brought
  | .body, block, hb, _ => by
    have hspan := hn.block _ _ hb
    cases hb
    have hstop := h.message.stop_le
    have hbase : s.message.body.base = s.message.offset := rfl
    exact ⟨h.message.offset_le, by omega⟩
  | .element group, block, hb, _ => by
    have hspan := hn.block _ _ hb
    obtain ⟨view, hview, hb⟩ := Action.except_bind_eq_ok hb
    have hbetween := h.between_of_groupAt hview
    unfold GroupView.element at hb
    cases hcurrent : view.current with
    | none =>
      rw [hcurrent] at hb
      cases hb
    | some base =>
      rw [hcurrent] at hb
      cases hb
      obtain ⟨hstart, hstop⟩ := hbetween.current_le base hcurrent
      exact ⟨hstart, by dsimp only at hspan ⊢; omega⟩
  | .members spot, block, hb, hword => by
    obtain ⟨b, hbinding, hb⟩ := Action.except_bind_eq_ok hb
    obtain ⟨view, hview, hb⟩ := Action.except_bind_eq_ok hb
    cases hb
    obtain ⟨c, hk, rfl⟩ := CompositeView.ofBinding_eq_ok hview
    obtain ⟨hstart, hstop⟩ := binding_le h hn spot b hbinding hword
    rw [Field.reach_composite hk] at hstop
    exact ⟨hstart, hstop⟩

theorem binding_le (h : Twins a b s s') (hn : s.Spans n) : ∀ spot binding,
    s.bind spot = .ok binding → a.stop + n + spot.brought < UInt64.size →
    a.start ≤ binding.offset ∧
      binding.offset + binding.field.reach ≤ a.stop + n + spot.brought
  | .header, binding, hb, _ => by
    have hspan := hn.bind _ _ hb
    have hreach := binding.field.offset_add_reach
    obtain ⟨view, hview, hb⟩ := Action.except_bind_eq_ok hb
    cases hb
    unfold Message.header at hview
    cases hheader : s.message.headerOffset with
    | none =>
      rw [hheader] at hview
      cases hview
    | some offset =>
      rw [hheader] at hview
      cases hview
      obtain ⟨hstart, hstop⟩ := h.message.header_le offset hheader
      exact ⟨hstart, by dsimp only at hspan hreach ⊢; omega⟩
  | .field place selector, binding, hb, hword => by
    obtain ⟨block, hblock, hb⟩ := Action.except_bind_eq_ok hb
    obtain ⟨f, hf, hb⟩ := Action.except_bind_eq_ok hb
    cases hb
    have hbrought : (Spot.field place selector).brought = place.brought + selector.brought := rfl
    have hspan := Selector.span_le hf
    have hreach := f.offset_add_reach
    obtain ⟨hstart, hstop⟩ := block_le h hn place block hblock (by omega)
    rw [Block.bind, Field.bindAt_of_span (by omega)]
    exact ⟨Nat.le_add_right_of_le hstart, by dsimp only; omega⟩

end

theorem binding_from (h : Twins a b s s') (hn : s.Spans n) {spot : Spot} {binding : Binding}
    (hb : s.bind spot = .ok binding) (hword : a.stop + n + spot.brought < UInt64.size) :
    binding.From a.start := by
  obtain ⟨hstart, hstop⟩ := h.binding_le hn spot binding hb hword
  exact ⟨hstart, Nat.lt_of_le_of_lt hstop hword⟩

theorem onWindow (h : Twins a b s s') {α : Type} {action : Action Window α}
    (hc : Confined a b action) :
    Alike (Twins a b) (onWindow action) (onWindow action) s s' :=
  .onPart (hc _ _ h.message.window) fun _ _ hw =>
    ⟨h.message.withWindow hw, h.groups_eq, h.between⟩

end Twins

theorem window_of_onWindow {α : Type} {action : Action Window α} {r : α}
    (h : onWindow action s = (.ok r, s')) : action s.window = (.ok r, s'.window) := by
  rw [onWindow, Action.onPart_apply] at h
  obtain ⟨hresult, rfl⟩ := Prod.mk.inj h
  exact Prod.ext hresult rfl

theorem alike_iterate (h : Twins a b s s') (group : Nat) {α : Type} {steps : Action Iteration α}
    (hs : ∀ it it', it.group ∈ s.groups → Iteration.Twins a b it it' →
      Alike (Iteration.Twins a b) steps steps it it') :
    Alike (Twins a b) (iterate group steps) (iterate group steps) s s' := by
  unfold iterate
  apply Alike.get_bind
  apply Alike.lift_bind h (h.groupAt_eq group)
  intro view hview
  refine .onPart (hs _ _ (mem_of_groupAt hview)
    ⟨rfl, h.message.window, h.between_of_groupAt hview⟩) ?_
  intro it it' hit
  refine ⟨h.message.withWindow hit.window, ?_, ?_⟩
  · simp only [h.groups_eq, hit.group_eq]
  · intro g hg
    rcases List.mem_or_eq_of_mem_set hg with hold | rfl
    · exact h.between g hold
    · exact hit.inside

end Session

theorem Binding.confined_entry {a b : Surroundings} {f : Binding}
    (hf : a.stop + f.field.span < UInt64.size) : Confined a b f.entry := by
  unfold Binding.entry
  cases hk : f.field.kind with
  | group g =>
    have hspan := Field.group_span_le hk
    exact .bind (GroupView.confined_bind (by omega) _ _) fun _ => .pure _
  | _ => exact .pure _

theorem GroupView.confined_ofBinding {a b : Surroundings} {f : Binding}
    (hf : a.stop + f.field.span < UInt64.size) : Confined a b (GroupView.ofBinding f) := by
  unfold GroupView.ofBinding
  cases hk : f.field.kind with
  | group g =>
    have hspan := Field.group_span_le hk
    exact GroupView.confined_bind (by omega) _ _
  | _ => exact .throw _

theorem GroupView.between_ofBinding {a : Surroundings} {f : Binding} {w w' : Window}
    {view : GroupView} (h : GroupView.ofBinding f w = (.ok view, w')) (hs : a.start ≤ w.position)
    (hp : w.position ≤ a.stop) : view.Between a := by
  obtain ⟨g, -, hbind⟩ := ofBinding_eq_ok h
  exact GroupView.between_bind hbind hs hp

theorem DataView.ofBinding_eq_ok {b : Binding} {view : DataView}
    (h : DataView.ofBinding b = .ok view) :
    ∃ d, b.field.kind = .data d ∧ view = ⟨b.field, d, b.visible⟩ := by
  unfold ofBinding at h
  cases hk : b.field.kind with
  | data d =>
    rw [hk] at h
    cases h
    exact ⟨d, rfl, rfl⟩
  | _ =>
    rw [hk] at h
    cases h

theorem Iteration.alike_skip {a b : Surroundings} {it it' : Iteration} (h : it.Twins a b it')
    (hg : a.stop + it.group.definition.span < UInt64.size) :
    Alike (Iteration.Twins a b) Iteration.skip Iteration.skip it it' := by
  have hfields : spanFields it.group.definition.fields ≤ it.group.definition.span :=
    Nat.le_max_left _ _
  unfold Iteration.skip
  apply Alike.get_bind
  rw [h.group_eq]
  exact alike_forRemaining (fun _ => confined_skipFields.table _ (by omega)) h

theorem Operation.alike {a b : Surroundings} {s s' : Session} {n : Nat} (h : s.Twins a b s')
    (hn : s.Spans n) {α : Type} (operation : Operation α)
    (hword : a.stop + n + operation.brought < UInt64.size) :
    Alike (Session.Twins a b) operation.run operation.run s s' := by
  have hgroup (g : GroupView) (hg : g ∈ s.groups) : a.stop + g.definition.span < UInt64.size := by
    have hspan := hn.groups g hg
    omega
  have hfield {spot : Spot} (binding : Binding) (hb : s.bind spot = .ok binding)
      (hspot : operation.brought = spot.brought) :
      a.stop + binding.field.span < UInt64.size := by
    have hspan := hn.bind spot binding hb
    omega
  cases operation with
  | field spot operation =>
    apply Alike.get_bind
    apply Alike.lift_bind h (h.bind_eq spot)
    intro binding hb
    exact h.onWindow (operation.confined (h.binding_from hn hb hword))
  | data spot operation =>
    apply Alike.get_bind
    apply Alike.lift_bind h (h.bind_eq spot)
    intro binding hb
    apply Alike.lift_bind h rfl
    intro view hview
    obtain ⟨d, hk, rfl⟩ := DataView.ofBinding_eq_ok hview
    have hspan := Field.data_span_le hk
    have hdata := hfield binding hb rfl
    exact h.onWindow (operation.confined (by dsimp only; omega))
  | entry spot =>
    apply Alike.get_bind
    apply Alike.lift_bind h (h.bind_eq spot)
    intro binding hb
    exact h.onWindow (binding.confined_entry (hfield binding hb rfl))
  -- The new view joins the groups of both sessions, with its header between the surroundings.
  | group spot =>
    apply Alike.get_bind
    apply Alike.lift_bind h (h.bind_eq spot)
    intro binding hb
    apply Alike.bind_of (h.onWindow (GroupView.confined_ofBinding (hfield binding hb rfl)))
    intro view t t' hview ht
    have hwindow := h.message.window
    have hbetween : view.Between a := GroupView.between_ofBinding
      (Session.window_of_onWindow hview) hwindow.start_le hwindow.position_le
    refine .bind (.change ⟨ht.message, by rw [ht.groups_eq], ?_⟩) fun _ t t' ht => .pure ht view
    intro g hg
    rcases List.mem_append.mp hg with hold | hnew
    · exact ht.between g hold
    · exact List.mem_singleton.mp hnew ▸ hbetween
  | state group =>
    apply Alike.get_bind
    exact .lift h (h.groupAt_eq group)
  | next group => exact Session.alike_iterate h group fun _ _ _ => Iteration.alike_next
  | resetCount group count =>
    exact Session.alike_iterate h group fun it _ hg hit =>
      Iteration.alike_resetCount hit (hgroup it.group hg) count
  | skipGroup group =>
    exact Session.alike_iterate h group fun it _ hg hit =>
      Iteration.alike_skip hit (hgroup it.group hg)
  | rewind => exact .change ⟨h.message.rewind, h.groups_eq, h.between⟩
  | skip =>
    have hfields : spanFields s.message.definition.fields ≤ n :=
      Nat.le_trans (Nat.le_max_right _ _) hn.message
    unfold Operation.run
    exact .onPart (Message.alike_skip h.message (by omega)) fun _ _ hm =>
      ⟨hm, h.groups_eq, h.between⟩

theorem Session.brought_cons {α : Type} (operation : Operation α) (rest : List Step) :
    brought (⟨α, operation⟩ :: rest) = operation.brought + brought rest :=
  List.sum_cons

theorem Session.twins_runSteps {a b : Surroundings} (steps : List Step) :
    ∀ (n : Nat) (s s' : Session), s.Twins a b s' → s.Spans n →
      a.stop + n + brought steps < UInt64.size →
      (runSteps steps s').1 = (runSteps steps s).1 ∧
        (runSteps steps s).2.Twins a b (runSteps steps s').2 := by
  induction steps with
  | nil => exact fun _ s s' h _ _ => ⟨rfl, h⟩
  | cons step rest ih =>
    obtain ⟨α, operation⟩ := step
    intro n s s' h hn hword
    rw [brought_cons] at hword
    obtain ⟨hresult, hrelated⟩ := operation.alike h hn (by omega)
    obtain ⟨hobservations, hlast⟩ := ih _ _ _ hrelated (hn.run operation) (by omega)
    refine ⟨?_, hlast⟩
    rw [runSteps_cons, runSteps_cons, hresult, hobservations, hrelated.message.position_eq]

inductive Message.Wrapped (a b : Surroundings) : Except Error Message → Except Error Message → Prop
  | failed (e : Error) : Wrapped a b (.error e) (.error e)
  | wrapped {m m' : Message} (h : m.Twins a b m') : Wrapped a b (.ok m) (.ok m')

namespace Message

variable {a b : Surroundings} {inner : Bytes}

theorem wrapped_bind {α : Type} {x x' : Except Error α} {f f' : α → Except Error Message}
    (hx : x' = x) (hf : ∀ r, x = .ok r → Wrapped a b (f r) (f' r)) :
    Wrapped a b (x >>= f) (x' >>= f') := by
  subst hx
  cases x' with
  | ok r => exact hf r rfl
  | error e => exact .failed e

theorem wrapped_framed {x x' : Except Error Message} (hx : Wrapped a b x x') {offset : Nat}
    (ho : a.start ≤ offset) (hl : offset ≤ a.stop) :
    Wrapped a b (do return { ← x with headerOffset := some offset })
      (do return { ← x' with headerOffset := some offset }) := by
  cases hx with
  | failed e => exact .failed e
  | wrapped h => exact .wrapped (h.framed ho hl)

section

variable (hp : a.Parallel b) (hi : inner.length = a.size) (hmax : a.stop ≤ Window.maxPosition)

include hp hi

theorem stop_le_lengths :
    a.stop ≤ (a.around inner).length ∧ a.stop ≤ (b.around inner).length := by
  refine ⟨Surroundings.stop_le_length hi, ?_⟩
  rw [← hp.stop_eq]
  exact Surroundings.stop_le_length (hi.trans hp.size_eq.symm)

include hmax

theorem wrapped_wrapForDecode {offset : Nat} (ho : a.start ≤ offset) (blockLength : Nat)
    (version : UInt16) (definition : MessageDef) :
    Wrapped a b (wrapForDecode (a.around inner) offset a.stop blockLength version definition)
      (wrapForDecode (b.around inner) offset a.stop blockLength version definition) := by
  obtain ⟨hle, hle'⟩ := stop_le_lengths hp hi
  rw [wrapForDecode_eq, wrapForDecode_eq, Window.open?_of_le hle hmax,
    Window.open?_of_le hle' hmax]
  split
  · exact .failed _
  · split
    · exact .failed _
    next hfit =>
      have hstop : offset + blockLength ≤ a.stop := Nat.le_of_not_lt hfit
      have hopened := SimpleBinary.Twins.opened hp hi (Nat.le_add_right_of_le ho) hstop version hmax
      refine .wrapped ⟨hopened, rfl, rfl, rfl, rfl, ho, hstop, ?_⟩
      rintro _ ⟨⟩

theorem wrapped_readFrame {offset : Nat} (ho : a.start ≤ offset) (definition : MessageDef) :
    Wrapped a b (readFrame (a.around inner) offset a.stop definition)
      (readFrame (b.around inner) offset a.stop definition) := by
  obtain ⟨hle, hle'⟩ := stop_le_lengths hp hi
  unfold readFrame
  rw [Window.open?_of_le hle hmax, Window.open?_of_le hle' hmax]
  by_cases hlt : a.stop < offset
  · rw [if_pos hlt, if_pos hlt]
    exact .failed _
  · rw [if_neg hlt, if_neg hlt, Action.ok_bind, Action.ok_bind]
    have hl : offset ≤ a.stop := Nat.le_of_not_lt hlt
    have hprobe := SimpleBinary.Twins.opened hp hi ho hl 0 hmax
    apply wrapped_bind (hprobe.read_eq ho MessageHeader.size)
    intro part _
    apply wrapped_bind rfl
    intro header _
    apply wrapped_bind rfl
    intro _ _
    exact wrapped_framed
      (wrapped_wrapForDecode hp hi hmax (Nat.le_add_right_of_le ho) _ _ _) ho hl

end

end Message

inductive Message.WrappedIn (a b : Surroundings) :
    Except Error Message × Bytes → Except Error Message × Bytes → Prop
  | failed (e : Error) {inner : Bytes} (hi : inner.length = a.size) :
    WrappedIn a b (.error e, a.around inner) (.error e, b.around inner)
  | wrapped {m m' : Message} (h : m.Twins a b m') (bytes bytes' : Bytes) :
    WrappedIn a b (.ok m, bytes) (.ok m', bytes')

theorem Message.Wrapped.within {a b : Surroundings} {x x' : Except Error Message}
    (h : Wrapped a b x x') {inner : Bytes} (hi : inner.length = a.size) :
    WrappedIn a b (x, a.around inner) (x', b.around inner) := by
  cases h with
  | failed e => exact .failed e hi
  | wrapped h => exact .wrapped h _ _

theorem Message.wrappedIn_writeFrame {a b : Surroundings} (hp : a.Parallel b) {inner : Bytes}
    (hi : inner.length = a.size) (hmax : a.stop ≤ Window.maxPosition) {offset : Nat}
    (ho : a.start ≤ offset) (definition : MessageDef) :
    WrappedIn a b (writeFrame offset a.stop definition (a.around inner))
      (writeFrame offset a.stop definition (b.around inner)) := by
  obtain ⟨hle, hle'⟩ := stop_le_lengths hp hi
  have hi' : inner.length = b.size := hi.trans hp.size_eq.symm
  simp only [writeFrame, Action.bind_apply, Action.get_apply, Action.lift_apply,
    Window.open?_of_le hle hmax, Window.open?_of_le hle' hmax]
  by_cases hlt : a.stop < offset
  · simp only [if_pos hlt]
    exact .failed _ hi
  simp only [if_neg hlt, Action.discard_apply, Action.lift_apply, Window.check]
  by_cases hfit : offset + (MessageHeader.size + definition.blockLength) ≤ a.stop
  · have hsize : offset + (MessageHeader.ofMessage definition).toBytes.length ≤ a.stop := by
      rw [MessageHeader.length_toBytes]
      omega
    have ho' : b.start ≤ offset := by
      rw [hp.start_eq]
      exact ho
    have hsize' : offset + (MessageHeader.ofMessage definition).toBytes.length ≤ b.stop := by
      rw [hp.stop_eq]
      exact hsize
    -- The header is written inside, so the two buffers are still one with different surroundings.
    have hwritten := Surroundings.overwrite_around hi ho hsize
    have hwritten' := Surroundings.overwrite_around hi' ho' hsize'
    rw [hp.start_eq] at hwritten'
    have hlength : (inner.overwrite (offset - a.start)
        (MessageHeader.ofMessage definition).toBytes).length = a.size := by
      unfold Surroundings.stop at hsize
      rw [Bytes.length_overwrite (by omega), hi]
    have hbody : a.start ≤ offset + MessageHeader.size := Nat.le_add_right_of_le ho
    have hwrap := wrapped_wrapForDecode hp hlength hmax hbody definition.blockLength
      definition.schema.version definition
    simp only [if_pos hfit, Except.map, Action.modify_apply, hwritten, hwritten', wrapForEncode]
    revert hwrap
    generalize wrapForDecode (a.around _) _ _ _ _ _ = x
    generalize wrapForDecode (b.around _) _ _ _ _ _ = x'
    intro hwrap
    cases hwrap with
    | failed e => exact .failed e hlength
    | wrapped h => exact .wrapped (h.framed ho (by omega)) _ _
  · simp only [if_neg hfit, Except.map]
    exact .failed _ hi

namespace Wrapping

variable {a b : Surroundings} {inner : Bytes} {wrapping : Wrapping}

theorem wrappedIn_wrap (hp : a.Parallel b) (hi : inner.length = a.size)
    (hmax : a.stop ≤ Window.maxPosition) (ho : a.start ≤ wrapping.offset)
    (hl : wrapping.limit = a.stop) (definition : MessageDef) :
    Message.WrappedIn a b (wrapping.wrap definition (a.around inner))
      (wrapping.wrap definition (b.around inner)) := by
  cases wrapping with
  | decode offset limit blockLength version =>
    obtain rfl : limit = a.stop := hl
    exact (Message.wrapped_wrapForDecode hp hi hmax ho blockLength version definition).within hi
  | encode offset limit =>
    obtain rfl : limit = a.stop := hl
    exact (Message.wrapped_wrapForDecode hp hi hmax ho _ _ definition).within hi
  | readFrame offset limit =>
    obtain rfl : limit = a.stop := hl
    exact (Message.wrapped_readFrame hp hi hmax ho definition).within hi
  | writeFrame offset limit =>
    obtain rfl : limit = a.stop := hl
    exact Message.wrappedIn_writeFrame hp hi hmax ho definition

theorem use_around (hp : a.Parallel b) (hi : inner.length = a.size)
    (ho : a.start ≤ wrapping.offset) (hl : wrapping.limit = a.stop) (definition : MessageDef)
    (steps : List Step)
    (hword : wrapping.limit + definition.span + Session.brought steps < UInt64.size) :
    (wrapping.use definition steps (b.around inner)).1 =
        (wrapping.use definition steps (a.around inner)).1 ∧
      ∃ inner', inner'.length = a.size ∧
        (wrapping.use definition steps (a.around inner)).2 = a.around inner' ∧
        (wrapping.use definition steps (b.around inner)).2 = b.around inner' := by
  rw [hl] at hword
  have hmax : a.stop ≤ Window.maxPosition := Nat.le_pred_of_lt (show a.stop < UInt64.size by omega)
  have hwrap := wrappedIn_wrap hp hi hmax ho hl definition
  unfold use
  revert hwrap
  generalize hx : wrapping.wrap definition (a.around inner) = x
  generalize wrapping.wrap definition (b.around inner) = x'
  intro hwrap
  cases hwrap with
  | failed e hi' => exact ⟨rfl, _, hi', rfl, rfl⟩
  | @wrapped m m' h _ _ =>
    have hm : m.definition = definition := by
      obtain ⟨_, _, _, _, -, -, _, rfl⟩ := wrap_eq_ok hx
      rfl
    obtain ⟨hobservations, hlast⟩ := Session.twins_runSteps steps definition.span
      ⟨m, []⟩ ⟨m', []⟩ ⟨h, rfl, by simp⟩ ⟨Nat.le_of_eq (congrArg MessageDef.span hm), by simp⟩ hword
    obtain ⟨inner', hi', hw, hw'⟩ := hlast.message.window.shared
    refine ⟨?_, inner', hi', hw, hw'⟩
    simp only [hobservations, h.position_eq]

/-- Where no offset wraps, a message is confined to the bytes from where it is wrapped to its limit:
whatever is done to it, the bytes outside stay as they are, and what is seen of it is the same
whatever they are. -/
theorem use_confined (wrapping : Wrapping) (definition : MessageDef) (steps : List Step)
    (hword : wrapping.limit + definition.span + Session.brought steps < UInt64.size)
    (bytes : Bytes) (hbytes : wrapping.limit ≤ bytes.length) :
    (∀ i, i < wrapping.offset ∨ wrapping.limit ≤ i →
      (wrapping.use definition steps bytes).2[i]? = bytes[i]?) ∧
    ∀ other : Bytes, wrapping.limit ≤ other.length →
      (∀ i, wrapping.offset ≤ i → i < wrapping.limit → other[i]? = bytes[i]?) →
      (wrapping.use definition steps other).1 = (wrapping.use definition steps bytes).1 ∧
      ∀ i, wrapping.offset ≤ i → i < wrapping.limit →
        (wrapping.use definition steps other).2[i]? =
          (wrapping.use definition steps bytes).2[i]? := by
  -- A message wrapped past its limit has no bytes of its own.
  set start := min wrapping.offset wrapping.limit with hstart
  have hs : start ≤ wrapping.limit := Nat.min_le_right _ _
  have ho : start ≤ wrapping.offset := Nat.min_le_left _ _
  set a := Surroundings.of bytes start wrapping.limit with ha
  set inner := bytes.slice start (wrapping.limit - start) with hinner
  have hastart : a.start = start := Surroundings.start_of hs hbytes
  have hoffset : a.start ≤ wrapping.offset := by omega
  have hastop : a.stop = wrapping.limit := Surroundings.stop_of hs hbytes
  have haround : a.around inner = bytes := Surroundings.around_of hs
  have hi : inner.length = a.size := Bytes.length_slice (by omega)
  constructor
  · intro i hout
    obtain ⟨-, inner', hi', huse, -⟩ :=
      use_around (a := a) ⟨rfl, rfl⟩ hi hoffset hastop.symm definition steps hword
    rw [haround] at huse
    rw [huse, Surroundings.getElem?_outside hi hi' (by omega), haround]
  · intro other hother hagree
    set b := Surroundings.of other start wrapping.limit with hb
    have hbstart : b.start = start := Surroundings.start_of hs hother
    have hp : a.Parallel b := ⟨hbstart.trans hastart.symm, rfl⟩
    have hsame : other.slice start (wrapping.limit - start) = inner := by
      apply List.ext_getElem?
      intro i
      rw [hinner, Bytes.getElem?_slice, Bytes.getElem?_slice]
      split
      · exact hagree (start + i) (by omega) (by omega)
      · rfl
    have hbaround : b.around inner = other := by
      rw [← hsame]
      exact Surroundings.around_of hs
    obtain ⟨hresult, inner', hi', huse, huse'⟩ :=
      use_around hp hi hoffset hastop.symm definition steps hword
    rw [haround] at huse hresult
    rw [hbaround] at huse' hresult
    refine ⟨hresult, ?_⟩
    intro i hl hr
    rw [huse, huse', Surroundings.getElem?_inside hi' hp.start_eq (by omega) (by omega)]

theorem use_confined_snapshot :
    ∃ steps : List Step, ∃ bytes other : Bytes,
      100 + Market.Snapshot.definition.span + Session.brought steps < UInt64.size ∧
      (∀ i, i < 10 ∨ 100 ≤ i →
        ((writeFrame 10 100).use Market.Snapshot.definition steps bytes).2[i]? = bytes[i]?) ∧
      other ≠ bytes ∧
      ((writeFrame 10 100).use Market.Snapshot.definition steps other).1 =
        ((writeFrame 10 100).use Market.Snapshot.definition steps bytes).1 := by
  have hagree : ∀ i < 100, 10 ≤ i → (List.replicate 100 7 ++ List.replicate 20 0 : Bytes)[i]? =
      (List.replicate 120 7 : Bytes)[i]? := by decide
  set steps : List Step :=
    [⟨Unit, .field (.field .body (.name "securityID")) (.setScalar (5 : UInt64))⟩,
      ⟨GroupView, .group (.field .body (.name "noMDEntries"))⟩, ⟨Unit, .resetCount 0 1⟩,
      ⟨Nat, .next 0⟩, ⟨Bytes, .data (.field .body (.name "memo")) .value⟩] with hsteps
  have hword : 100 + Market.Snapshot.definition.span + Session.brought steps < UInt64.size := by
    decide
  obtain ⟨houtside, hinside⟩ := use_confined (.writeFrame 10 100) Market.Snapshot.definition steps
    hword (List.replicate 120 7) (by decide)
  obtain ⟨hsame, -⟩ := hinside (List.replicate 100 7 ++ List.replicate 20 0) (by decide)
    fun i hl hr => hagree i hr hl
  exact ⟨steps, _, _, hword, houtside, by decide, hsame⟩

theorem use_writes_before_start :
    (encode 8 16).use
        ⟨"far", 1, 8, [.required "mark" 1 18446744073709551612 (.type (.plain "uint32" .uint32 1))],
          ⟨"far", 1, 0⟩⟩
        [⟨Unit, .field (.field .body (.name "mark")) (.setScalar (4294967295 : UInt32))⟩]
        (List.replicate 16 0) =
      (.ok (16, [⟨Unit, .ok ⟨⟩, 16⟩]),
        List.replicate 4 0 ++ List.replicate 4 255 ++ List.replicate 8 0) :=
  rfl

end Wrapping

end SimpleBinary
