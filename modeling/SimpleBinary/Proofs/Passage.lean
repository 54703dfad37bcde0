import SimpleBinary.Proofs.Onward

namespace SimpleBinary

theorem Action.get_bind_after {σ α : Type} {P : σ → Prop} {s : σ} {f : σ → Action σ α}
    (h : P (f s s).2) : P ((get >>= f) s).2 :=
  h

theorem Action.lift_bind_after {σ α β : Type} {P : σ → Prop} {s : σ} {x : Except Error α}
    {f : α → Action σ β} (hs : P s) (hf : ∀ a, x = .ok a → P (f a s).2) :
    P ((liftM x >>= f) s).2 := by
  cases x with
  | ok a => exact hf a rfl
  | error e => exact hs

def GroupView.headerStop (g : GroupView) : Nat :=
  g.headerOffset + g.definition.dimension.encodedLength

theorem GroupView.bound_of_ofBinding {b : Binding} {w w' : Window} {view : GroupView}
    (h : GroupView.ofBinding b w = (.ok view, w')) :
    view.current = none ∧ (view.visible = true →
      w.position ≤ view.headerOffset ∧ view.headerStop ≤ w'.position) := by
  obtain ⟨g, -, hbind⟩ := ofBinding_eq_ok h
  rcases bind_cases hbind with ⟨-, rfl, -⟩ | ⟨-, _, _, -, -, rfl, -, rfl⟩
  · exact ⟨rfl, fun hv => by cases hv⟩
  · exact ⟨rfl, fun _ => ⟨Nat.le_refl _, Nat.le_refl _⟩⟩

/-- Whether the operation is one on groups and data that goes onward. The header of a group is
rewritten only from right behind it, and all of the groups and data are skipped only from the first
one on. No place that is formed from a descriptor wraps. -/
def Operation.GoesOnward {α : Type} (s : Session) : Operation α → Prop
  | .resetCount g _ => ∀ view, s.groupAt g = .ok view →
    s.window.limit + view.definition.span < UInt64.size ∧
      (view.visible = true → view.index = 0 → s.window.position = view.headerStop)
  | .skip => s.window.limit + spanFields s.message.definition.fields < UInt64.size ∧
    s.window.position = s.message.offset + s.message.blockLength
  | .data spot _ | .entry spot | .group spot => ∀ b, s.bind spot = .ok b →
    s.window.limit + b.field.span < UInt64.size
  | .skipGroup g => ∀ view, s.groupAt g = .ok view →
    s.window.limit + view.definition.span < UInt64.size
  | .field _ _ | .rewind => False
  | .state _ | .next _ => True

namespace Session

inductive Regrouped (s t : Session) : Prop
  | same (h : t.groups = s.groups)
  | bound (view : GroupView) (h : t.groups = s.groups ++ [view]) (hcurrent : view.current = none)
    (hheader : view.visible = true →
      s.window.position ≤ view.headerOffset ∧ view.headerStop ≤ t.window.position)
  | entered (g : Nat) (view : GroupView) (base index : Nat) (hview : s.groups[g]? = some view)
    (h : t.groups = s.groups.set g { view with current := some base, index })
    (hindex : view.index < index) (hbase : s.window.position ≤ base)
    (hstop : base + view.blockLength ≤ t.window.position)
  | recounted (g : Nat) (view : GroupView) (blockLength count : Nat)
    (hview : s.groups[g]? = some view)
    (h : t.groups = s.groups.set g { view with blockLength, count, current := none })

/-- What an operation on groups and data does that goes onward: it keeps the bytes before the
position, or the header right before it is written. -/
structure Passage (s t : Session) : Prop where
  message_eq : t.message = { s.message with window := t.window }
  onward : s.window.Onward s.window.position t.window ∨
    ∃ view ∈ s.groups, view.visible = true ∧ s.window.position = view.headerStop ∧
      s.window.Onward view.headerOffset t.window
  groups : Regrouped s t

theorem groupAt_eq_ok_iff {s : Session} {g : Nat} {view : GroupView} :
    s.groupAt g = .ok view ↔ s.groups[g]? = some view := by
  unfold groupAt
  constructor
  · intro h
    split at h
    next hview =>
      cases h
      exact hview
    next => cases h
  · intro h
    rw [h]

theorem set_groups_self {s : Session} {g : Nat} {view : GroupView}
    (h : s.groups[g]? = some view) : s.groups.set g view = s.groups := by
  obtain ⟨hlt, rfl⟩ := List.getElem?_eq_some_iff.mp h
  exact List.set_getElem_self hlt

theorem iterate_of_groupAt {s : Session} {n : Nat} {view : GroupView} {α : Type}
    (h : s.groupAt n = .ok view) (steps : Action Iteration α) :
    iterate n steps s = ((steps ⟨view, s.window⟩).1,
      { s.withWindow (steps ⟨view, s.window⟩).2.window with
        groups := s.groups.set n (steps ⟨view, s.window⟩).2.group }) := by
  simp only [iterate, Action.bind_apply, Action.get_apply, Action.lift_apply, h,
    Action.onPart_apply]

theorem iterate_of_unchanged {s : Session} {n : Nat} {view : GroupView} {α : Type}
    (h : s.groupAt n = .ok view) {steps : Action Iteration α} {result : Except Error α}
    (hs : steps ⟨view, s.window⟩ = (result, ⟨view, s.window⟩)) :
    iterate n steps s = (result, s) := by
  rw [iterate_of_groupAt h, hs, set_groups_self (groupAt_eq_ok_iff.mp h)]
  rfl

namespace Passage

variable {s : Session}

theorem refl (hw : s.window.Sound) : Passage s s :=
  ⟨rfl, .inl (.refl hw _), .same rfl⟩

theorem onWindow {α : Type} {room : Nat} {x : Action Window α} (hx : Passing room x)
    (hw : s.window.Sound) (hroom : s.window.limit + room < UInt64.size) :
    Passage s (s.onWindow x).2 :=
  ⟨rfl, .inl (hx.onward hw hroom), .same rfl⟩

theorem iterate {α : Type} {room : GroupView → Nat} {steps : Action Iteration α}
    (hs : Iteration.Passing room steps)
    (hp : ∀ it : Iteration, it.window.Sound → it.Progress (steps it).2)
    (hw : s.window.Sound) (g : Nat)
    (hroom : ∀ view, s.groupAt g = .ok view → s.window.limit + room view < UInt64.size) :
    Passage s (Session.iterate g steps s).2 := by
  apply Action.get_bind_after
  apply Action.lift_bind_after (.refl hw)
  intro view hview
  have hat := groupAt_eq_ok_iff.mp hview
  have hsound : (Iteration.mk view s.window).window.Sound := hw
  have honward := hs.onward hsound (hroom view hview)
  refine ⟨rfl, .inl honward, ?_⟩
  rw [Action.onPart_apply]
  cases hp ⟨view, s.window⟩ hw with
  | same hgroup =>
    refine .same ?_
    rw [hgroup]
    exact set_groups_self hat
  | entered base index hgroup hindex hbase hstop =>
    refine .entered g view base index hat ?_ hindex hbase hstop
    rw [hgroup]

end Passage

end Session

namespace Iteration

theorem after_regroup (x : Action Window Unit) (view view' : GroupView) (w : Window) :
    ∃ group, (group = view ∨ group = view') ∧
      ((onWindow x >>= fun _ => modify fun it => { it with group := view' } :
        Action Iteration Unit) ⟨view, w⟩).2 = ⟨group, (x w).2⟩ := by
  rw [Action.bind_apply, onWindow, Action.onPart_apply]
  cases hx : x w with
  | mk result v =>
    cases result with
    | ok _ => exact ⟨view', .inr rfl, rfl⟩
    | error e => exact ⟨view, .inl rfl, rfl⟩

theorem onward_resetCount {view : GroupView} {w : Window} (hw : w.Sound) (count : Nat)
    (hplace : view.visible = true → view.index = 0 →
      view.headerOffset + view.definition.span < UInt64.size) :
    (resetCount count ⟨view, w⟩).2 = ⟨view, w⟩ ∨
      view.visible = true ∧ view.index = 0 ∧ ∃ group v,
        (resetCount count ⟨view, w⟩).2 = ⟨group, v⟩ ∧ w.Onward view.headerOffset v ∧
        (group = view ∨ ∃ blockLength number,
          group = { view with blockLength, count := number, current := none }) := by
  rw [resetCount, Action.bind_apply, Action.get_apply]
  simp only [Action.throw_bind]
  split
  · exact .inl rfl
  next hv =>
    split
    · exact .inl rfl
    next hi =>
      split
      · exact .inl rfl
      next =>
        have hvisible : view.visible = true := by simpa using hv
        have hfirst : view.index = 0 := by omega
        have hword := hplace hvisible hfirst
        have hmembers := view.definition.members_le_span
        -- The header lies behind the place of the group, so writing it keeps all before that place.
        have hlength : view.headerOffset ≤
            wordOf (view.headerOffset + view.definition.blockLengthMember.offset) := by
          rw [wordOf_of_lt (by omega)]
          exact Nat.le_add_right _ _
        have hnumber : view.headerOffset ≤
            wordOf (view.headerOffset + view.definition.numInGroupMember.offset) := by
          rw [wordOf_of_lt (by omega)]
          exact Nat.le_add_right _ _
        obtain ⟨group, hgroup, hafter⟩ := after_regroup (do
          Window.writeScalar
            (wordOf (view.headerOffset + view.definition.blockLengthMember.offset))
            view.definition.blockLengthMember.primitive
            (.uint (UInt64.ofNat view.definition.blockLength))
          Window.writeScalar (wordOf (view.headerOffset + view.definition.numInGroupMember.offset))
            view.definition.numInGroupMember.primitive (.uint (UInt64.ofNat count)))
          view { view with blockLength := view.definition.blockLength, count, current := none } w
        exact .inr ⟨hvisible, hfirst, group, _, hafter,
          Window.onward_write_write hw hlength hnumber _ _, hgroup.imp id fun h => ⟨_, _, h⟩⟩

end Iteration

namespace Session

theorem Passage.resetCount {s : Session} (hw : s.window.Sound) (g count : Nat)
    (hplace : ∀ view, s.groupAt g = .ok view →
      s.window.limit + view.definition.span < UInt64.size ∧
        (view.visible = true → view.index = 0 → s.window.position = view.headerStop)) :
    Passage s (Session.iterate g (Iteration.resetCount count) s).2 := by
  apply Action.get_bind_after
  apply Action.lift_bind_after (.refl hw)
  intro view hview
  have hat := groupAt_eq_ok_iff.mp hview
  rw [Action.onPart_apply]
  obtain ⟨hword, hposition⟩ := hplace view hview
  have hheader : view.visible = true → view.index = 0 →
      view.headerOffset + view.definition.span < UInt64.size := by
    intro hv hi
    have hstop : s.window.position = view.headerStop := hposition hv hi
    have hinside := hw.position_le
    unfold GroupView.headerStop at hstop
    omega
  rcases Iteration.onward_resetCount hw count hheader with
    hsame | ⟨hv, hi, group, w, hafter, honward, hg⟩
  · rw [hsame, set_groups_self hat]
    exact .refl hw
  · rw [hafter]
    refine ⟨rfl, .inr ⟨view, mem_of_groupAt hview, hv, hposition hv hi, honward⟩, ?_⟩
    rcases hg with rfl | ⟨blockLength, number, rfl⟩
    · exact .same (set_groups_self hat)
    · exact .recounted g view blockLength number hat rfl

end Session

theorem Operation.skip_from_first {s : Session} (hw : s.window.Sound)
    (h : Operation.skip.GoesOnward s) :
    Operation.skip.run s = (Session.onWindow (skipFields s.message.definition.fields) >>=
      fun _ => do return (← get).message.encodedLength : Action Session Nat) s := by
  have hskip := Message.skip_of_wrapped (m := s.message) h.2 hw.position_le
  simp only [Operation.run, Action.onPart_apply, hskip, Action.bind_apply, Session.onWindow,
    Session.window]
  cases skipFields s.message.definition.fields s.message.window with
  | mk result w => cases result <;> rfl

theorem Operation.passage {α : Type} {operation : Operation α} {s : Session}
    (hw : s.window.Sound) (h : operation.GoesOnward s) : Session.Passage s (operation.run s).2 := by
  cases operation with
  | field | rewind => cases h
  | skip =>
    rw [skip_from_first hw h, Action.bind_apply]
    have hpassage := Session.Passage.onWindow (.skipFields s.message.definition.fields) hw h.1
    revert hpassage
    cases Session.onWindow (skipFields s.message.definition.fields) s with
    | mk result t => cases result <;> exact id
  | data spot operation =>
    apply Action.get_bind_after
    apply Action.lift_bind_after (.refl hw)
    intro b hb
    apply Action.lift_bind_after (.refl hw)
    intro view hview
    obtain ⟨d, hk, rfl⟩ := DataView.ofBinding_eq_ok hview
    have hspan := Field.data_span_le hk
    have hroom := h b hb
    exact .onWindow (.data operation _) hw (by dsimp only; omega)
  | entry spot =>
    apply Action.get_bind_after
    apply Action.lift_bind_after (.refl hw)
    intro b hb
    exact .onWindow (.entry b) hw (h b hb)
  | group spot =>
    apply Action.get_bind_after
    apply Action.lift_bind_after (.refl hw)
    intro b hb
    have honward := (Passing.group b).onward hw (h b hb)
    cases hview : GroupView.ofBinding b s.window with
    | mk result w =>
      rw [hview] at honward
      have hpart : Session.onWindow (GroupView.ofBinding b) s = (result, s.withWindow w) := by
        rw [Session.onWindow, Action.onPart_apply, hview]
      cases result with
      | error e =>
        rw [Action.bind_of_error hpart]
        exact ⟨rfl, .inl honward, .same rfl⟩
      | ok view =>
        obtain ⟨hcurrent, hheader⟩ := GroupView.bound_of_ofBinding hview
        rw [Action.bind_of_ok hpart]
        exact ⟨rfl, .inl honward, .bound view rfl hcurrent hheader⟩
  | state g =>
    apply Action.get_bind_after
    exact .refl hw
  | next g =>
    exact .iterate Iteration.passing_next (fun it _ => Iteration.progress_next it) hw g
      fun _ _ => s.window.lt_of_le_limit (Nat.le_refl _)
  | resetCount g count => exact .resetCount hw g count h
  | skipGroup g => exact .iterate Iteration.passing_skip (fun _ => Iteration.progress_skip) hw g h

namespace Session

mutual

theorem block_withWindow (s : Session) {w : Window} (hv : w.version = s.window.version) :
    ∀ place, (s.withWindow w).block place = s.block place
  | .body => rfl
  | .element _ => rfl
  | .members spot => by
    simp only [block, bind_withWindow s hv spot]

theorem bind_withWindow (s : Session) {w : Window} (hv : w.version = s.window.version) :
    ∀ spot, (s.withWindow w).bind spot = s.bind spot
  | .header => rfl
  | .field place selector => by
    have hversion : (s.withWindow w).message.version = s.message.version := hv
    simp only [bind, block_withWindow s hv place, hversion]

end

structure Agrees (places : Nat → Prop) (s s' : Session) : Prop where
  same : s' = s.withWindow s'.window
  window : s.window.Agrees places s'.window

namespace Agrees

variable {places : Nat → Prop} {s s' : Session}

theorem refl (places : Nat → Prop) (s : Session) : s.Agrees places s :=
  ⟨rfl, .refl places s.window⟩

theorem mono {places' : Nat → Prop} (h : s.Agrees places s') (hp : ∀ i, places' i → places i) :
    s.Agrees places' s' :=
  ⟨h.same, h.window.mono hp⟩

theorem trans {s'' : Session} (h : s.Agrees places s') (h' : s'.Agrees places s'') :
    s.Agrees places s'' := by
  refine ⟨?_, h.window.trans h'.window⟩
  rw [h'.same, h.same]
  rfl

theorem groups_eq (h : s.Agrees places s') : s'.groups = s.groups := by
  rw [h.same]
  rfl

theorem bind_eq (h : s.Agrees places s') (spot : Spot) : s'.bind spot = s.bind spot := by
  rw [h.same]
  exact s.bind_withWindow h.window.version_eq spot

theorem groupAt_eq (h : s.Agrees places s') (g : Nat) : s'.groupAt g = s.groupAt g := by
  rw [groupAt, groupAt, h.groups_eq]

theorem goesOnward_iff (h : s.Agrees places s') {α : Type} {operation : Operation α} :
    operation.GoesOnward s' ↔ operation.GoesOnward s := by
  have hposition := h.window.position_eq
  have hlimit := h.window.limit_eq
  cases operation with
  | data | entry | group => simp only [Operation.GoesOnward, h.bind_eq, hlimit]
  | resetCount => simp only [Operation.GoesOnward, h.groupAt_eq, hposition, hlimit]
  | skipGroup => simp only [Operation.GoesOnward, h.groupAt_eq, hlimit]
  | skip =>
    have hstart : s'.message.offset + s'.message.blockLength =
        s.message.offset + s.message.blockLength := by
      rw [h.same]
      rfl
    have hfields : s'.message.definition = s.message.definition := by
      rw [h.same]
      rfl
    simp only [Operation.GoesOnward, hposition, hlimit, hstart, hfields]
  | _ => exact Iff.rfl

theorem encodedLength_eq (h : s.Agrees places s') :
    s'.message.encodedLength = s.message.encodedLength := by
  rw [h.same]
  exact congrArg (· - s.message.offset) h.window.position_eq

theorem withWindow (h : s.Agrees places s') {w w' : Window} (hw : w.Agrees places w') :
    (s.withWindow w).Agrees places (s'.withWindow w') := by
  refine ⟨?_, hw⟩
  rw [h.same]
  rfl

theorem withGroups (h : s.Agrees places s') (groups : List GroupView) :
    Agrees places { s with groups } { s' with groups } := by
  refine ⟨?_, h.window⟩
  rw [h.same]
  rfl

theorem onWindow (h : s.Agrees places s') {α : Type} {x : Action Window α}
    (hx : Alike (Window.Agrees places) x x s.window s'.window) :
    Alike (Agrees places) (Session.onWindow x) (Session.onWindow x) s s' :=
  .onPart hx fun _ _ hw => h.withWindow hw

theorem iterate (h : s.Agrees places s') (g : Nat) {α : Type} {steps : Action Iteration α}
    (hs : ∀ it it', s.groupAt g = .ok it.group → it.window = s.window →
      Iteration.Agrees places it it' →
      Alike (Iteration.Agrees places) steps steps it it') :
    Alike (Agrees places) (Session.iterate g steps) (Session.iterate g steps) s s' := by
  unfold Session.iterate
  apply Alike.get_bind
  apply Alike.lift_bind h (h.groupAt_eq g)
  intro view hview
  refine .onPart (hs _ _ hview rfl ⟨rfl, h.window⟩) ?_
  intro it it' hit
  have hgroups := (h.withWindow hit.window).withGroups (s.groups.set g it.group)
  simpa only [h.groups_eq, hit.group_eq] using hgroups

end Agrees

end Session

theorem Operation.alike_of_agrees {α : Type} {operation : Operation α} {places : Nat → Prop}
    {s s' : Session} (hg : operation.GoesOnward s) (hw : s.window.Sound) (h : s.Agrees places s')
    (hp : ∀ i, s.window.position ≤ i → places i) :
    Alike (Session.Agrees places) operation.run operation.run s s' := by
  cases operation with
  | field | rewind => cases hg
  -- Skipping rewinds first: a session that has passed nothing stands there already.
  | skip =>
    have hstart : Operation.skip.GoesOnward s' := h.goesOnward_iff.mpr hg
    have hfields : s'.message.definition = s.message.definition := by rw [h.same]; rfl
    have hafter : Alike (Session.Agrees places)
        (Session.onWindow (skipFields s.message.definition.fields) >>=
          fun _ => do return (← get).message.encodedLength : Action Session Nat)
        (Session.onWindow (skipFields s.message.definition.fields) >>=
          fun _ => do return (← get).message.encodedLength) s s' := by
      apply Alike.bind (h.onWindow ((Passing.skipFields _).alike hw hg.1 h.window hp))
      intro _ t t' ht
      apply Alike.get_bind
      rw [ht.encodedLength_eq]
      exact .pure ht _
    refine ⟨?_, ?_⟩
    · rw [skip_from_first hw hg, skip_from_first (h.window.sound hw) hstart, hfields]
      exact hafter.result
    · rw [skip_from_first hw hg, skip_from_first (h.window.sound hw) hstart, hfields]
      exact hafter.related
  | data spot operation =>
    apply Alike.get_bind
    apply Alike.lift_bind h (h.bind_eq spot)
    intro b hb
    apply Alike.lift_bind h rfl
    intro view hview
    obtain ⟨d, hk, rfl⟩ := DataView.ofBinding_eq_ok hview
    have hspan := Field.data_span_le hk
    have hroom := hg b hb
    exact h.onWindow ((Passing.data operation _).alike hw (by dsimp only; omega) h.window hp)
  | entry spot =>
    apply Alike.get_bind
    apply Alike.lift_bind h (h.bind_eq spot)
    intro b hb
    exact h.onWindow ((Passing.entry b).alike hw (hg b hb) h.window hp)
  | group spot =>
    apply Alike.get_bind
    apply Alike.lift_bind h (h.bind_eq spot)
    intro b hb
    apply Alike.bind (h.onWindow ((Passing.group b).alike hw (hg b hb) h.window hp))
    intro view t t' ht
    have hgroups := ht.withGroups (t.groups ++ [view])
    refine .bind (.change ?_) fun _ t t' ht => .pure ht view
    simpa only [ht.groups_eq] using hgroups
  | state g =>
    apply Alike.get_bind
    exact .lift h (h.groupAt_eq g)
  | next g =>
    apply h.iterate g
    rintro ⟨view, w⟩ it' - rfl hit
    exact Iteration.passing_next.alike hw (s.window.lt_of_le_limit (Nat.le_refl _)) hit hp
  | resetCount g count =>
    apply h.iterate g
    rintro ⟨view, w⟩ it' - rfl hit
    exact hit.resetCount hw count
  | skipGroup g =>
    apply h.iterate g
    rintro ⟨view, w⟩ it' hview rfl hit
    exact Iteration.passing_skip.alike hw (hg view hview) hit hp

end SimpleBinary
