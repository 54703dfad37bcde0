import SimpleBinary.Market.Schema
import SimpleBinary.Proofs.Counters
import SimpleBinary.Proofs.Passage
import SimpleBinary.Proofs.Visits

namespace SimpleBinary

namespace GroupView

variable {g : GroupView} {w w' : Window}

structure Underway (g : GroupView) (w : Window) : Prop where
  index_le : g.index ≤ g.count
  isSome_current : g.current.isSome = true ↔ 0 < g.index
  element_le (base : Nat) (h : g.current = some base) : base + g.blockLength ≤ w.position
  position_le : w.position ≤ w.limit
  count_of_hidden (h : g.visible = false) : g.count = 0

theorem underway_of_bind {f : Field} {d : GroupDef} {visible : Bool} (hw : w.Sound)
    (h : bind f d visible w = (.ok g, w')) : g.Underway w' := by
  rcases bind_cases h with ⟨-, rfl, rfl⟩ | ⟨-, _, _, -, -, rfl, hle, rfl⟩
  · exact ⟨Nat.le_refl _, by simp, by simp, hw.position_le, fun _ => rfl⟩
  · exact ⟨Nat.zero_le _, by simp, by simp, hle, by simp⟩

theorem underway_of_ofBinding {b : Binding} (hw : w.Sound) (h : ofBinding b w = (.ok g, w')) :
    g.Underway w' := by
  obtain ⟨d, -, hbind⟩ := ofBinding_eq_ok h
  exact underway_of_bind hw hbind

theorem underway_counted (hv : g.visible = true) (hi : g.index = 0) (hw : w.position ≤ w.limit)
    (count : Nat) : (g.counted count).Underway w where
  index_le := by
    rw [counted, hi]
    exact Nat.zero_le count
  isSome_current := by simp [counted, hi]
  element_le _ h := by cases h
  position_le := hw
  count_of_hidden h := by
    change g.visible = false at h
    rw [hv] at h
    cases h

namespace Underway

theorem onward {kept : Nat} (h : g.Underway w) (hw : w.Onward kept w') : g.Underway w' where
  index_le := h.index_le
  isSome_current := h.isSome_current
  element_le base hbase := Nat.le_trans (h.element_le base hbase) hw.position_le
  position_le := hw.inside
  count_of_hidden := h.count_of_hidden

theorem visible_of_started (h : g.Underway w) (hi : 0 < g.index) : g.visible = true := by
  by_contra hv
  have hcount := h.count_of_hidden (eq_false_of_ne_true hv)
  have hle := h.index_le
  omega

theorem current_eq_none_iff (h : g.Underway w) : g.current = none ↔ g.index = 0 := by
  have hcurrent := h.isSome_current
  rw [← Option.not_isSome_iff_eq_none, hcurrent]
  omega

end Underway

end GroupView

namespace Iteration

variable {it it' : Iteration} {count : Nat} {g : GroupView} {w : Window}

theorem Progress.same_counts (h : it.Progress it') :
    it'.group.count = it.group.count ∧ it'.group.blockLength = it.group.blockLength := by
  cases h with
  | same hgroup => rw [hgroup]; exact ⟨rfl, rfl⟩
  | entered base index hgroup => rw [hgroup]; exact ⟨rfl, rfl⟩

theorem underway_of_progress (h : it.group.Underway it.window) (hp : it.Progress it')
    (hi : it'.group.index ≤ it'.group.count)
    (hw : it.window.Onward 0 it'.window) : it'.group.Underway it'.window := by
  cases hp with
  | same hgroup =>
    rw [hgroup]
    exact h.onward hw
  | entered base index hgroup hindex hbase hstop =>
    rw [hgroup] at hi ⊢
    refine ⟨hi, ?_, ?_, hw.inside, h.count_of_hidden⟩
    · simp only [Option.isSome_some, true_iff]
      exact Nat.zero_lt_of_lt hindex
    · rintro _ ⟨⟩
      exact hstop

theorem index_le_next (h : it.group.index ≤ it.group.count) :
    (next it).2.group.index ≤ (next it).2.group.count := by
  obtain ⟨g, w⟩ := it
  by_cases hi : g.index < g.count
  · by_cases hle : w.position + g.blockLength ≤ w.limit
    · rw [next_of_le hi hle]
      exact hi
    · rw [next_of_lt hi (Nat.lt_of_not_le hle)]
      exact h
  · rw [next_of_done (Nat.le_of_not_lt hi)]
    exact h

theorem index_le_repeatNext {visit : Nat → Action Window Unit} (n : Nat) :
    ∀ {it : Iteration}, it.group.index ≤ it.group.count →
      (repeatNext visit n it).2.group.index ≤ (repeatNext visit n it).2.group.count := by
  induction n with
  | zero => exact fun h => h
  | succ n ih =>
    intro it h
    have hfirst := index_le_next h
    unfold repeatNext
    cases hnext : next it with
    | mk result it₁ =>
      rw [hnext] at hfirst
      cases result with
      | error e =>
        rw [Action.bind_of_error hnext]
        exact hfirst
      | ok base =>
        rw [Action.bind_of_ok hnext, Action.bind_apply, onWindow, Action.onPart_apply]
        rcases visit base it₁.window with ⟨e | _, v⟩
        · exact hfirst
        · exact ih hfirst

theorem index_of_skip (h : it.group.Underway it.window) (hs : skip it = (.ok ⟨⟩, it')) :
    it'.group.index = it'.group.count := by
  have hrepeat : repeatNext (fun _ => skipFields it.group.definition.fields) it.group.remaining it =
      (.ok ⟨⟩, it') := hs
  have hle := h.index_le
  rw [visited_of_repeatNext _ hrepeat]
  simp only [GroupView.remaining]
  omega

theorem underway_next (h : it.group.Underway it.window) (hw : it.window.Sound) :
    (next it).2.group.Underway (next it).2.window :=
  underway_of_progress h (progress_next it) (index_le_next h.index_le) (passing_next.forth it hw)

theorem underway_skip (h : it.group.Underway it.window) (hw : it.window.Sound) :
    (skip it).2.group.Underway (skip it).2.window :=
  underway_of_progress h (progress_skip hw) (index_le_repeatNext _ h.index_le)
    (passing_skip.forth it hw)

theorem group_of_resetCount_error {e : Error} (h : resetCount count it = (.error e, it')) :
    it'.group = it.group := by
  simp only [resetCount, Action.bind_apply, Action.get_apply, Action.throw_bind] at h
  split at h
  · cases h; rfl
  split at h
  · cases h; rfl
  split at h
  · cases h; rfl
  rw [Action.bind_apply, onWindow, Action.onPart_apply] at h
  split at h
  next => cases h
  next hwrite =>
    obtain ⟨-, rfl⟩ := Prod.mk.inj hwrite
    obtain ⟨-, rfl⟩ := Prod.mk.inj h
    rfl

theorem resetCount_cases (count : Nat) (g : GroupView) (w : Window) :
    (∃ e v, resetCount count ⟨g, w⟩ = (.error e, ⟨g, v⟩)) ∨
      g.visible = true ∧ g.index = 0 ∧
        ∃ v, resetCount count ⟨g, w⟩ = (.ok ⟨⟩, ⟨g.counted count, v⟩) := by
  cases hreset : resetCount count ⟨g, w⟩ with
  | mk result it =>
    cases result with
    | error e =>
      obtain rfl : it.group = g := group_of_resetCount_error hreset
      exact .inl ⟨e, it.window, rfl⟩
    | ok _ =>
      obtain ⟨hv, hi, -⟩ := GroupView.resetCount_eq_ok hreset
      have hgroup : it.group = g.counted count := GroupView.group_of_resetCount hreset
      exact .inr ⟨hv, hi, it.window, by rw [← hgroup]⟩

theorem resetCount_of_started (hv : g.visible = true) (hi : 0 < g.index) :
    resetCount count ⟨g, w⟩ = (.error (.iterationStarted g.name), ⟨g, w⟩) := by
  simp only [resetCount, Action.bind_apply, Action.get_apply, hv, Bool.not_true, Bool.false_eq_true,
    if_false, hi, if_true, Action.throw_apply]

end Iteration

namespace Session

variable {s t : Session} {n : Nat} {g view : GroupView}

theorem groupAt_iterate {α : Type} (h : s.groupAt n = .ok g) (steps : Action Iteration α) :
    (iterate n steps s).2.groupAt n = .ok (steps ⟨g, s.window⟩).2.group := by
  obtain ⟨hlt, -⟩ := List.getElem?_eq_some_iff.mp (groupAt_eq_ok_iff.mp h)
  rw [iterate_of_groupAt h, groupAt_eq_ok_iff, List.getElem?_set_self hlt]

theorem groupAt_iterate_ne {α : Type} {m : Nat} (hm : m ≠ n) (steps : Action Iteration α) :
    (iterate m steps s).2.groupAt n = s.groupAt n := by
  cases hg : s.groupAt m with
  | error e => simp only [iterate, Action.bind_apply, Action.get_apply, Action.lift_apply, hg]
  | ok g =>
    rw [iterate_of_groupAt hg, groupAt, groupAt]
    dsimp only
    rw [List.getElem?_set_ne hm]

theorem bound_of_group {spot : Spot} (hw : s.window.Sound)
    (h : (Operation.group spot).run s = (.ok g, t)) :
    t.groupAt s.groups.length = .ok g ∧ g.Underway t.window ∧ t.window.Sound := by
  obtain ⟨_, _, hget, h⟩ := Action.bind_eq_ok h
  cases hget
  obtain ⟨b, _, hb, h⟩ := Action.bind_eq_ok h
  obtain ⟨-, rfl⟩ := Prod.mk.inj hb
  obtain ⟨bound, t₁, hbound, h⟩ := Action.bind_eq_ok h
  have hsound := (Passing.group b).forth s.window hw
  rw [onWindow, Action.onPart_apply] at hbound
  cases hview : GroupView.ofBinding b s.window with
  | mk result w =>
    rw [hview] at hbound hsound
    obtain ⟨rfl, rfl⟩ := Prod.mk.inj hbound
    cases h
    refine ⟨?_, GroupView.underway_of_ofBinding hw hview, hsound.sound hw⟩
    rw [groupAt_eq_ok_iff]
    exact List.getElem?_concat_length

end Session

namespace Operation

variable {α : Type} {n : Nat}

def concerns (n : Nat) : Operation α → Bool
  | .next g | .resetCount g _ | .skipGroup g => g == n
  | _ => false

def recounts (n : Nat) : Operation α → Bool
  | .resetCount g _ => g == n
  | _ => false

theorem groupAt_of_not_concerned {operation : Operation α} (hc : operation.concerns n = false)
    {s : Session} {g : GroupView} (hg : s.groupAt n = .ok g) :
    (operation.run s).2.groupAt n = .ok g := by
  rw [← hg]
  cases operation with
  | next m | resetCount m count | skipGroup m =>
    exact Session.groupAt_iterate_ne (beq_eq_false_iff_ne.mp hc) _
  | rewind | skip => rfl
  | state m => simp only [run, Action.bind_apply, Action.get_apply, Action.lift_apply]
  | field spot operation | entry spot =>
    simp only [run, Action.bind_apply, Action.get_apply, Action.lift_apply]
    cases s.bind spot <;> rfl
  | data spot operation =>
    simp only [run, Action.bind_apply, Action.get_apply, Action.lift_apply]
    cases s.bind spot with
    | error e => rfl
    | ok b =>
      dsimp only
      cases DataView.ofBinding b <;> rfl
  | group spot =>
    simp only [run, Action.bind_apply, Action.get_apply, Action.lift_apply]
    cases s.bind spot with
    | error e => rfl
    | ok b =>
      dsimp only
      rw [Session.onWindow, Action.onPart_apply]
      rcases GroupView.ofBinding b s.window with ⟨e | view, w⟩
      · rfl
      · have hn := Session.groupAt_eq_ok_iff.mp hg
        obtain ⟨hlt, -⟩ := List.getElem?_eq_some_iff.mp hn
        rw [hg, Session.groupAt_eq_ok_iff]
        exact (List.getElem?_append_left hlt).trans hn

theorem underway {operation : Operation α} (hr : operation.rewinds = false) {s : Session}
    (hw : s.window.Sound) {g : GroupView} (hg : s.groupAt n = .ok g) (h : g.Underway s.window) :
    ∃ g', (operation.run s).2.groupAt n = .ok g' ∧ g'.Underway (operation.run s).2.window ∧
      (g'.count = g.count ∧ g'.blockLength = g.blockLength ∨
        operation.recounts n ∧ (operation.run s).1.isOk) := by
  obtain ⟨-, honward⟩ := operation.onward hr hw
  cases hc : operation.concerns n with
  | false =>
    exact ⟨g, groupAt_of_not_concerned hc hg, h.onward honward, .inl ⟨rfl, rfl⟩⟩
  | true =>
    cases operation with
    | next m =>
      obtain rfl : m = n := beq_iff_eq.mp hc
      refine ⟨_, Session.groupAt_iterate hg Iteration.next, ?_,
        .inl (Iteration.progress_next _).same_counts⟩
      simp only [run, Session.iterate_of_groupAt hg]
      exact Iteration.underway_next h hw
    | skipGroup m =>
      obtain rfl : m = n := beq_iff_eq.mp hc
      refine ⟨_, Session.groupAt_iterate hg Iteration.skip, ?_,
        .inl (Iteration.progress_skip hw).same_counts⟩
      simp only [run, Session.iterate_of_groupAt hg]
      exact Iteration.underway_skip h hw
    | resetCount m count =>
      obtain rfl : m = n := beq_iff_eq.mp hc
      refine ⟨_, Session.groupAt_iterate hg (Iteration.resetCount count), ?_⟩
      simp only [run, Session.iterate_of_groupAt hg] at honward ⊢
      rcases Iteration.resetCount_cases count g s.window with ⟨e, v, hreset⟩ | ⟨hv, hi, v, hreset⟩
      · rw [hreset] at honward ⊢
        exact ⟨h.onward honward, .inl ⟨rfl, rfl⟩⟩
      · rw [hreset] at honward ⊢
        exact ⟨GroupView.underway_counted hv hi honward.inside count, .inr ⟨hc, rfl⟩⟩
    | _ => cases hc

end Operation

theorem Selector.error_of_fieldOf {selector : Selector} {block : Block} {e : Error}
    (h : selector.fieldOf block = .error e) : e = .fieldNotFound := by
  cases selector with
  | field f => cases h
  | index i =>
    simp only [fieldOf, Block.fieldAt] at h
    split at h
    · cases h
    · exact (Except.error.inj h).symm
  | name text =>
    simp only [fieldOf, Block.fieldNamed] at h
    split at h
    · cases h
    · exact (Except.error.inj h).symm

namespace Session

variable {s : Session} {n : Nat} {g : GroupView}

/-- What comes of iterating a group that is underway, and of reaching into its current element. -/
structure IterationRules (n : Nat) (g : GroupView) (s : Session) : Prop where
  recount_refused (count : Nat) (h : 0 < g.index) :
    (Operation.resetCount n count).run s = (.error (.iterationStarted g.name), s)
  next_exceeded :
    ((Operation.next n).run s).1 = .error (.groupCountExceeded g.name g.count) ↔ g.index = g.count
  next_short : (∃ required limit,
    ((Operation.next n).run s).1 = .error (.bufferTooShort required limit)) ↔
      g.index < g.count ∧ s.window.limit < s.window.position + g.blockLength
  next_failed {e : Error} (h : ((Operation.next n).run s).1 = .error e) :
    ((Operation.next n).run s).2 = s
  no_element (selector : Selector) :
    s.bind (.field (.element n) selector) = .error (.noCurrentElement g.name) ↔ g.index = 0
  exhausted (h : ((Operation.skipGroup n).run s).1 = .ok ⟨⟩) :
    ∃ g', ((Operation.skipGroup n).run s).2.groupAt n = .ok g' ∧ g'.index = g'.count

theorem next_outcome (h : s.groupAt n = .ok g) (hi : g.index ≤ g.count) :
    g.index = g.count ∧
        (Operation.next n).run s = (.error (.groupCountExceeded g.name g.count), s) ∨
      g.index < g.count ∧ s.window.limit < s.window.position + g.blockLength ∧
        (Operation.next n).run s =
          (.error (s.window.tooShort (s.window.position + g.blockLength)), s) ∨
      g.index < g.count ∧ s.window.position + g.blockLength ≤ s.window.limit ∧
        ((Operation.next n).run s).1 = .ok s.window.position := by
  rcases Nat.eq_or_lt_of_le hi with hi | hi
  · have hnext := Iteration.next_of_done (w := s.window) (Nat.le_of_eq hi.symm)
    exact .inl ⟨hi, iterate_of_unchanged h hnext⟩
  · by_cases hle : s.window.position + g.blockLength ≤ s.window.limit
    · have hnext : (Operation.next n).run s = _ := iterate_of_groupAt h Iteration.next
      rw [Iteration.next_of_le hi hle] at hnext
      exact .inr (.inr ⟨hi, hle, by rw [hnext]⟩)
    · have hlt := Nat.lt_of_not_le hle
      exact .inr (.inl ⟨hi, hlt, iterate_of_unchanged h (Iteration.next_of_lt hi hlt)⟩)

theorem block_of_groupAt (h : s.groupAt n = .ok g) : s.block (.element n) = g.element := by
  rw [block, h]
  rfl

theorem bind_of_no_element (h : s.groupAt n = .ok g) (hc : g.current = none)
    (selector : Selector) :
    s.bind (.field (.element n) selector) = .error (.noCurrentElement g.name) := by
  rw [bind, block_of_groupAt h, GroupView.element, hc]
  rfl

theorem error_of_bind_element {base : Nat} (h : s.groupAt n = .ok g) (hc : g.current = some base)
    {selector : Selector} {e : Error} (he : s.bind (.field (.element n) selector) = .error e) :
    e = .fieldNotFound := by
  rw [bind, block_of_groupAt h, GroupView.element, hc] at he
  change (do
    let f ← selector.fieldOf ⟨base, g.definition.fields, true⟩
    return Block.bind ⟨base, g.definition.fields, true⟩ s.message.version f) = .error e at he
  cases hf : selector.fieldOf ⟨base, g.definition.fields, true⟩ with
  | error e' =>
    rw [hf] at he
    cases he
    exact Selector.error_of_fieldOf hf
  | ok f =>
    rw [hf] at he
    cases he

theorem iterationRules (hg : s.groupAt n = .ok g) (h : g.Underway s.window) :
    s.IterationRules n g where
  recount_refused count hi :=
    iterate_of_unchanged hg (Iteration.resetCount_of_started (h.visible_of_started hi) hi)
  next_exceeded := by
    rcases next_outcome hg h.index_le with ⟨hi, hnext⟩ | ⟨hi, -, hnext⟩ | ⟨hi, -, hnext⟩
    · simp [hnext, hi]
    · simp [hnext, Window.tooShort, Nat.ne_of_lt hi]
    · simp [hnext, Nat.ne_of_lt hi]
  next_short := by
    rcases next_outcome hg h.index_le with ⟨hi, hnext⟩ | ⟨hi, hlt, hnext⟩ | ⟨hi, hle, hnext⟩
    · simp [hnext, hi]
    · simp [hnext, Window.tooShort, hi, hlt]
    · simp [hnext, Nat.not_lt.mpr hle]
  next_failed {e} he := by
    rcases next_outcome hg h.index_le with ⟨-, hnext⟩ | ⟨-, -, hnext⟩ | ⟨-, -, hnext⟩
    · rw [hnext]
    · rw [hnext]
    · rw [hnext] at he
      cases he
  -- Where there is an element, a name that is not found is another error.
  no_element selector := by
    rw [← h.current_eq_none_iff]
    cases hcurrent : g.current with
    | none => exact iff_of_true (bind_of_no_element hg hcurrent selector) rfl
    | some base =>
      refine iff_of_false ?_ (Option.some_ne_none base)
      intro hbind
      cases error_of_bind_element hg hcurrent hbind
  exhausted hskip := by
    refine ⟨_, groupAt_iterate hg Iteration.skip, ?_⟩
    simp only [Operation.run, iterate_of_groupAt hg] at hskip
    cases hstop : Iteration.skip ⟨g, s.window⟩ with
    | mk result it =>
      rw [hstop] at hskip
      obtain rfl : result = .ok ⟨⟩ := hskip
      exact Iteration.index_of_skip h hstop

/-- A group that is underway stays so over whatever is done without rewinding. -/
theorem underway_runSteps (steps : List Step) (hr : ∀ step ∈ steps, step.2.rewinds = false) :
    ∀ {s : Session} {g : GroupView}, s.window.Sound → s.groupAt n = .ok g → g.Underway s.window →
      ∃ g', (runSteps steps s).2.groupAt n = .ok g' ∧
        g'.Underway (runSteps steps s).2.window ∧ (runSteps steps s).2.window.Sound := by
  induction steps with
  | nil => exact fun hw hg h => ⟨_, hg, h, hw⟩
  | cons step rest ih =>
    obtain ⟨α, operation⟩ := step
    intro s g hw hg h
    obtain ⟨hfirst, hrest⟩ := List.forall_mem_cons.mp hr
    obtain ⟨-, honward⟩ := operation.onward hfirst hw
    obtain ⟨g', hg', h', -⟩ := operation.underway hfirst hw hg h
    exact ih hrest (honward.sound hw) hg' h'

theorem iteration_of_bound_group (s : Session) (hs : s.window.Sound) (spot : Spot)
    (view : GroupView) (t : Session) (h : (Operation.group spot).run s = (.ok view, t))
    (steps : List Step) (hr : ∀ step ∈ steps, step.2.rewinds = false) (u : Session)
    (hu : u = (runSteps steps t).2) :
    ∃ g, u.groupAt s.groups.length = .ok g ∧ g.Underway u.window ∧
      u.IterationRules s.groups.length g ∧
      ∀ (α : Type) (operation : Operation α), operation.rewinds = false →
        ∃ g', (operation.run u).2.groupAt s.groups.length = .ok g' ∧
          (g'.count = g.count ∧ g'.blockLength = g.blockLength ∨
            operation.recounts s.groups.length ∧ (operation.run u).1.isOk) := by
  obtain ⟨hview, hunderway, hsound⟩ := bound_of_group hs h
  obtain ⟨g, hg, hunder, hw⟩ := underway_runSteps steps hr hsound hview hunderway
  rw [← hu] at hg hunder hw
  refine ⟨g, hg, hunder, iterationRules hg hunder, ?_⟩
  intro α operation hoperation
  obtain ⟨g', hg', -, hcounts⟩ := operation.underway hoperation hw hg hunder
  exact ⟨g', hg', hcounts⟩

end Session

def Market.Snapshot.twoEntriesMessage : Message :=
  ⟨⟨twoEntries, 100, 28, 2, by decide⟩, definition, 0, none, 28⟩

theorem Session.iteration_of_bound_group_snapshot :
    (Wrapping.decode 0 100 28 2).wrap Market.Snapshot.definition Market.Snapshot.twoEntries =
        (.ok Market.Snapshot.twoEntriesMessage, Market.Snapshot.twoEntries) ∧
      ∃ view t, (Operation.group (.field .body (.name "noMDEntries"))).run
          ⟨Market.Snapshot.twoEntriesMessage, []⟩ = (.ok view, t) ∧
        ∀ u, u = (runSteps [⟨Nat, .next 0⟩, ⟨Unit, .resetCount 0 5⟩, ⟨Unit, .skipGroup 0⟩] t).2 →
          (Operation.resetCount 0 1).run u = (.error (.iterationStarted "noMDEntries"), u) ∧
            ((Operation.next 0).run u).1 = .error (.groupCountExceeded "noMDEntries" 2) := by
  have hbound : (Operation.group (.field .body (.name "noMDEntries"))).run
      ⟨Market.Snapshot.twoEntriesMessage, []⟩ =
    (.ok ⟨Market.Snapshot.Fields.noMdEntries, Market.Entries.group, 28, 33, 2, 0, none, true⟩,
      ⟨⟨⟨Market.Snapshot.twoEntries, 100, 31, 2, by decide⟩, Market.Snapshot.definition, 0, none,
          28⟩,
        [⟨Market.Snapshot.Fields.noMdEntries, Market.Entries.group, 28, 33, 2, 0, none, true⟩]⟩) :=
    rfl
  refine ⟨rfl, _, _, hbound, ?_⟩
  rintro u hu
  obtain ⟨g, hg, -, hrules, -⟩ := iteration_of_bound_group ⟨Market.Snapshot.twoEntriesMessage, []⟩
    ⟨by decide, by decide⟩ _ _ _ hbound
    [⟨Nat, .next 0⟩, ⟨Unit, .resetCount 0 5⟩, ⟨Unit, .skipGroup 0⟩] (by simp [Operation.rewinds])
    u hu
  subst hu
  cases hg
  exact ⟨hrules.recount_refused 1 (by decide), hrules.next_exceeded.mpr rfl⟩

end SimpleBinary
