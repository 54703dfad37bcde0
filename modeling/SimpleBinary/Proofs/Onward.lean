import SimpleBinary.Proofs.Forward
import SimpleBinary.Proofs.Isolation

/-!
Moving over groups and data goes onward: the position never goes back, no byte before it is seen or
changed, and a group comes to elements further on only. The one exception is a group whose count is
reset, which has its header written.
-/

namespace SimpleBinary

structure Window.Agrees (places : Nat → Prop) (w w' : Window) : Prop where
  version_eq : w'.version = w.version
  limit_eq : w'.limit = w.limit
  position_eq : w'.position = w.position
  length_eq : w'.bytes.length = w.bytes.length
  getElem?_eq (i : Nat) (h : places i) : w'.bytes[i]? = w.bytes[i]?

def Window.surroundings (w : Window) : Surroundings :=
  .of w.bytes w.position w.limit

namespace Window

variable {places : Nat → Prop} {w w' t t' : Window}

theorem Sound.start_surroundings (hw : w.Sound) : w.surroundings.start = w.position :=
  Surroundings.start_of hw.position_le hw.limit_le

theorem Sound.stop_surroundings (hw : w.Sound) : w.surroundings.stop = w.limit :=
  Surroundings.stop_of hw.position_le hw.limit_le

theorem around_surroundings (hw : w.position ≤ w.limit) :
    w.surroundings.around (w.bytes.slice w.position (w.limit - w.position)) = w.bytes :=
  Surroundings.around_of hw

theorem Sound.length_inner (hw : w.Sound) :
    (w.bytes.slice w.position (w.limit - w.position)).length = w.surroundings.size := by
  have hposition := hw.position_le
  have hlimit := hw.limit_le
  exact Bytes.length_slice (by omega)

theorem Sound.outside (hw : w.Sound) {inner : Bytes} (hi : inner.length = w.surroundings.size)
    {i : Nat} (h : i < w.position ∨ w.limit ≤ i) :
    (w.surroundings.around inner)[i]? = w.bytes[i]? := by
  rw [Surroundings.getElem?_outside hw.length_inner hi, around_surroundings hw.position_le]
  rw [hw.start_surroundings, hw.stop_surroundings]
  exact h

theorem Sound.length_around (hw : w.Sound) {inner : Bytes}
    (hi : inner.length = w.surroundings.size) :
    (w.surroundings.around inner).length = w.bytes.length := by
  conv_rhs => rw [← around_surroundings hw.position_le]
  rw [Surroundings.length_around, Surroundings.length_around, hi, hw.length_inner]

theorem Onward.of_twins (hw : w.Sound) (ht : Twins w.surroundings w.surroundings t t)
    (h : w.Onward 0 t) : w.Onward w.position t where
  version_eq := h.version_eq
  limit_eq := h.limit_eq
  length_eq := h.length_eq
  position_le := h.position_le
  inside := h.inside
  getElem?_eq i hi := by
    obtain ⟨inner, hinner, hbytes, -⟩ := ht.shared
    rw [hbytes, hw.outside hinner (.inl hi)]

namespace Agrees

theorem refl (places : Nat → Prop) (w : Window) : w.Agrees places w :=
  ⟨rfl, rfl, rfl, rfl, fun _ _ => rfl⟩

theorem mono {places' : Nat → Prop} (h : w.Agrees places w') (hp : ∀ i, places' i → places i) :
    w.Agrees places' w' :=
  { h with getElem?_eq := fun i hi => h.getElem?_eq i (hp i hi) }

theorem written (hw : w.Sound) {start : Nat} {part : Bytes} (hle : start + part.length ≤ w.limit)
    (hp : ∀ i, places i → i < start ∨ start + part.length ≤ i) :
    w.Agrees places (w.written start part) := by
  have hlength := Nat.le_trans hle hw.limit_le
  refine ⟨rfl, rfl, rfl, Bytes.length_overwrite hlength, ?_⟩
  intro i hi
  rw [written_bytes, Bytes.getElem?_overwrite hlength, if_pos (hp i hi)]

theorem symm (h : w.Agrees places w') : w'.Agrees places w :=
  ⟨h.version_eq.symm, h.limit_eq.symm, h.position_eq.symm, h.length_eq.symm, fun i hi =>
    (h.getElem?_eq i hi).symm⟩

theorem trans {w'' : Window} (h : w.Agrees places w') (h' : w'.Agrees places w'') :
    w.Agrees places w'' :=
  ⟨h'.version_eq.trans h.version_eq, h'.limit_eq.trans h.limit_eq,
    h'.position_eq.trans h.position_eq, h'.length_eq.trans h.length_eq, fun i hi =>
    (h'.getElem?_eq i hi).trans (h.getElem?_eq i hi)⟩

theorem sound (h : w.Agrees places w') (hw : w.Sound) : w'.Sound :=
  ⟨by rw [h.position_eq, h.limit_eq]; exact hw.position_le,
    by rw [h.limit_eq, h.length_eq]; exact hw.limit_le⟩

theorem parallel (h : w.Agrees places w') (hw : w.Sound) :
    w.surroundings.Parallel w'.surroundings where
  start_eq := by
    rw [(h.sound hw).start_surroundings, hw.start_surroundings, h.position_eq]
  size_eq := by
    simp only [surroundings, Surroundings.of, h.position_eq, h.limit_eq]

theorem twins (h : w.Agrees places w') (hw : w.Sound) (hp : ∀ i, w.position ≤ i → places i) :
    Twins w.surroundings w'.surroundings w w' := by
  refine { h.parallel hw with
    shared := ⟨_, hw.length_inner, (around_surroundings hw.position_le).symm, ?_⟩
    start_le := Nat.le_of_eq hw.start_surroundings
    position_le := Nat.le_trans hw.position_le (Nat.le_of_eq hw.stop_surroundings.symm)
    limit_stop := hw.stop_surroundings.symm
    limit_eq := h.limit_eq
    position_eq := h.position_eq
    version_eq := h.version_eq }
  have hinner : w'.bytes.slice w'.position (w'.limit - w'.position) =
      w.bytes.slice w.position (w.limit - w.position) := by
    rw [h.position_eq, h.limit_eq]
    apply List.ext_getElem?
    intro i
    rw [Bytes.getElem?_slice, Bytes.getElem?_slice, h.getElem?_eq _ (hp _ (Nat.le_add_right _ _))]
  rw [← hinner, around_surroundings (h.sound hw).position_le]

theorem of_twins (h : w.Agrees places w') (hw : w.Sound)
    (ht : Twins w.surroundings w'.surroundings t t') : t.Agrees places t' := by
  have hw' := h.sound hw
  obtain ⟨inner, hi, hbytes, hbytes'⟩ := ht.shared
  have hi' : inner.length = w'.surroundings.size := hi.trans (h.parallel hw).size_eq.symm
  refine ⟨ht.version_eq, ht.limit_eq, ht.position_eq, ?_, ?_⟩
  · rw [hbytes, hbytes', hw.length_around hi, hw'.length_around hi', h.length_eq]
  · intro i hplace
    rw [hbytes, hbytes']
    by_cases hout : i < w.position ∨ w.limit ≤ i
    · rw [hw.outside hi hout, hw'.outside hi' (by rwa [h.position_eq, h.limit_eq]),
        h.getElem?_eq i hplace]
    · apply Surroundings.getElem?_inside hi (h.parallel hw).start_eq
      · rw [hw.start_surroundings]
        omega
      · rw [hw.stop_surroundings]
        omega

theorem write (h : w.Agrees places w') (hw : w.Sound) (start : Nat) (part : Bytes) :
    Alike (Agrees places) (Window.write start part) (Window.write start part) w w' := by
  by_cases hle : start + part.length ≤ w.limit
  · have hle' : start + part.length ≤ w'.limit := by rwa [h.limit_eq]
    have hlength := Nat.le_trans hle hw.limit_le
    refine ⟨by rw [write_of_le hle, write_of_le hle'], ?_⟩
    rw [write_of_le hle, write_of_le hle']
    refine { h with length_eq := ?_, getElem?_eq := ?_ }
    · rw [written_bytes, written_bytes, Bytes.length_overwrite hlength,
        Bytes.length_overwrite (by rwa [h.length_eq]), h.length_eq]
    · intro i hplace
      rw [written_bytes, written_bytes, Bytes.getElem?_overwrite hlength,
        Bytes.getElem?_overwrite (by rwa [h.length_eq]), h.getElem?_eq i hplace]
  · have hlt := Nat.lt_of_not_le hle
    have hlt' : w'.limit < start + part.length := by rwa [h.limit_eq]
    refine ⟨?_, ?_⟩
    · rw [write_of_lt hlt, write_of_lt hlt', tooShort, tooShort, h.limit_eq]
    · rw [write_of_lt hlt, write_of_lt hlt']
      exact h

end Agrees

end Window

/-- The action reads and writes from the position on only, where no place wraps that is so many
bytes behind the limit, and it moves the position onward. -/
structure Passing {α : Type} (room : Nat) (x : Action Window α) : Prop where
  confined (a b : Surroundings) (h : a.stop + room < UInt64.size) : Confined a b x
  forth : Leads Window.Forth x

namespace Passing

variable {α : Type} {room : Nat} {x : Action Window α} {places : Nat → Prop} {w w' : Window}

theorem onward (hx : Passing room x) (hw : w.Sound) (hroom : w.limit + room < UInt64.size) :
    w.Onward w.position (x w).2 := by
  have htwins := (Window.Agrees.refl _ w).twins hw fun _ _ => trivial
  exact .of_twins hw (hx.confined _ _ (by rwa [hw.stop_surroundings]) w w htwins).related
    (hx.forth w hw)

theorem alike (hx : Passing room x) (hw : w.Sound) (hroom : w.limit + room < UInt64.size)
    (h : w.Agrees places w') (hp : ∀ i, w.position ≤ i → places i) :
    Alike (Window.Agrees places) x x w w' := by
  have hconfined := hx.confined _ _ (by rwa [hw.stop_surroundings]) w w' (h.twins hw hp)
  exact ⟨hconfined.result, h.of_twins hw hconfined.related⟩

theorem data (operation : DataOperation α) (d : DataView) :
    Passing d.definition.span (operation.run d) :=
  ⟨fun _ _ h => operation.confined h, operation.leads Window.forth_write Window.forth_advance d⟩

theorem entry (b : Binding) : Passing b.field.span b.entry :=
  ⟨fun _ _ => b.confined_entry, b.keeps_entry Window.forth_advance⟩

theorem group (b : Binding) : Passing b.field.span (GroupView.ofBinding b) :=
  ⟨fun _ _ => GroupView.confined_ofBinding, GroupView.keeps_ofBinding Window.forth_advance b⟩

theorem skipFields (fields : List Field) : Passing (spanFields fields) (skipFields fields) :=
  ⟨fun _ _ => confined_skipFields.table fields,
    (keeps_skipFields Window.forth_advance).table fields⟩

end Passing

namespace Iteration

structure Beside (a b : Surroundings) (it it' : Iteration) : Prop where
  group_eq : it'.group = it.group
  window : SimpleBinary.Twins a b it.window it'.window

section

variable {a b : Surroundings} {it it' : Iteration}

theorem Beside.onWindow {α : Type} {action : Action Window α} (h : Beside a b it it')
    (hc : Confined a b action) :
    Alike (Beside a b) (onWindow action) (onWindow action) it it' :=
  .onPart (hc _ _ h.window) fun _ _ ht => ⟨h.group_eq, ht⟩

theorem Beside.next (h : Beside a b it it') : Alike (Beside a b) next next it it' := by
  unfold Iteration.next
  apply Alike.get_bind
  rw [h.group_eq]
  refine .guard h fun _ => ?_
  apply Alike.bind (h.onWindow (.advance it.group.blockLength))
  intro base t t' ht
  exact .bind (.change ⟨rfl, ht.window⟩) fun _ t t' ht => .pure ht base

theorem Beside.repeatNext {visit : Nat → Action Window Unit}
    (hv : ∀ base, Confined a b (visit base)) (n : Nat) :
    ∀ it it', Beside a b it it' →
      Alike (Beside a b) (repeatNext visit n) (repeatNext visit n) it it' := by
  induction n with
  | zero => exact fun _ _ h => .pure h _
  | succ n ih =>
    intro it it' h
    apply Alike.bind h.next
    intro base t t' ht
    exact .bind (ht.onWindow (hv base)) fun _ t t' ht => ih t t' ht

theorem Beside.skip (h : Beside a b it it')
    (hg : a.stop + it.group.definition.span < UInt64.size) :
    Alike (Beside a b) skip skip it it' := by
  have hfields : spanFields it.group.definition.fields ≤ it.group.definition.span :=
    Nat.le_max_left _ _
  unfold Iteration.skip
  apply Alike.get_bind
  rw [h.group_eq]
  unfold forRemaining
  apply Alike.get_bind
  rw [h.group_eq]
  exact Beside.repeatNext (fun _ => confined_skipFields.table _ (by omega)) _ it it' h

end

structure Passing {α : Type} (room : GroupView → Nat) (steps : Action Iteration α) : Prop where
  beside (a b : Surroundings) (it it' : Iteration) (h : Beside a b it it')
    (hroom : a.stop + room it.group < UInt64.size) : Alike (Beside a b) steps steps it it'
  forth : Leads (Windows Window.Forth) steps

theorem passing_next : Passing (fun _ => 0) next :=
  ⟨fun _ _ _ _ h _ => h.next, keeps_window_next Window.forth_advance⟩

theorem passing_skip : Passing (fun g => g.definition.span) skip :=
  ⟨fun _ _ _ _ h => h.skip, .get_bind fun _ =>
    keeps_window_forRemaining Window.forth_advance fun _ =>
      (keeps_skipFields Window.forth_advance).table _⟩

structure Agrees (places : Nat → Prop) (it it' : Iteration) : Prop where
  group_eq : it'.group = it.group
  window : it.window.Agrees places it'.window

namespace Passing

variable {α : Type} {room : GroupView → Nat} {steps : Action Iteration α} {places : Nat → Prop}
  {it it' : Iteration}

theorem onward (hs : Passing room steps) (hw : it.window.Sound)
    (hroom : it.window.limit + room it.group < UInt64.size) :
    it.window.Onward it.window.position (steps it).2.window := by
  have htwins := (Window.Agrees.refl _ it.window).twins hw fun _ _ => trivial
  exact .of_twins hw (hs.beside _ _ it it ⟨rfl, htwins⟩
    (by rwa [hw.stop_surroundings])).related.window (hs.forth it hw)

theorem alike (hs : Passing room steps) (hw : it.window.Sound)
    (hroom : it.window.limit + room it.group < UInt64.size) (h : Agrees places it it')
    (hp : ∀ i, it.window.position ≤ i → places i) :
    Alike (Agrees places) steps steps it it' := by
  have hbeside := hs.beside _ _ it it' ⟨h.group_eq, h.window.twins hw hp⟩
    (by rwa [hw.stop_surroundings])
  exact ⟨hbeside.result, hbeside.related.group_eq, h.window.of_twins hw hbeside.related.window⟩

end Passing

theorem Agrees.resetCount {places : Nat → Prop} {it it' : Iteration} (h : Agrees places it it')
    (hw : it.window.Sound) (count : Nat) :
    Alike (Agrees places) (resetCount count) (resetCount count) it it' := by
  unfold Iteration.resetCount
  apply Alike.get_bind
  rw [h.group_eq, h.window.version_eq]
  refine .guard h fun _ => .guard h fun _ => .guard h fun _ => ?_
  apply Alike.bind
  · refine .onPart ?_ fun _ _ ht => ⟨h.group_eq, ht⟩
    apply Alike.bind_of (h.window.write hw _ _)
    intro _ t t' hwrite ht
    apply ht.write
    obtain ⟨hle, rfl⟩ := Window.write_eq_ok hwrite
    exact ⟨hw.position_le, by
      rw [Window.written_bytes, Bytes.length_overwrite (Nat.le_trans hle hw.limit_le)]
      exact hw.limit_le⟩
  · intro _ t t' ht
    exact .change ⟨rfl, ht.window⟩

inductive Progress (it it' : Iteration) : Prop
  | same (h : it'.group = it.group)
  | entered (base index : Nat)
    (hgroup : it'.group = { it.group with current := some base, index })
    (hindex : it.group.index < index) (hbase : it.window.position ≤ base)
    (hstop : base + it.group.blockLength ≤ it'.window.position)

theorem progress_next (it : Iteration) : Progress it (next it).2 := by
  obtain ⟨g, w⟩ := it
  by_cases hi : g.index < g.count
  · by_cases hle : w.position + g.blockLength ≤ w.limit
    · rw [next_of_le hi hle]
      exact .entered w.position (g.index + 1) rfl (Nat.lt_succ_self _) (Nat.le_refl _)
        (Nat.le_refl _)
    · rw [next_of_lt hi (Nat.lt_of_not_le hle)]
      exact .same rfl
  · rw [next_of_done (Nat.le_of_not_lt hi)]
    exact .same rfl

theorem Progress.moved {it it' it'' : Iteration} (h : Progress it it')
    (hgroup : it''.group = it'.group) (hposition : it'.window.position ≤ it''.window.position) :
    Progress it it'' := by
  cases h with
  | same h => exact .same (hgroup.trans h)
  | entered base index hg hindex hbase hstop =>
    exact .entered base index (hgroup.trans hg) hindex hbase (Nat.le_trans hstop hposition)

theorem Progress.trans {it it' it'' : Iteration} (h : Progress it it') (h' : Progress it' it'')
    (hposition : it.window.position ≤ it'.window.position)
    (hposition' : it'.window.position ≤ it''.window.position) : Progress it it'' := by
  cases h' with
  | same hsame => exact h.moved hsame hposition'
  | entered base index hg hindex hbase hstop =>
    cases h with
    | same hsame =>
      rw [hsame] at hg hindex hstop
      exact .entered base index hg hindex (Nat.le_trans hposition hbase) hstop
    | entered base₁ index₁ hg₁ hindex₁ hbase₁ hstop₁ =>
      rw [hg₁] at hg hindex hstop
      exact .entered base index hg (Nat.lt_trans hindex₁ hindex) (Nat.le_trans hposition hbase)
        hstop

theorem progress_repeatNext {visit : Nat → Action Window Unit}
    (hv : ∀ base, Leads Window.Forth (visit base)) (n : Nat) :
    ∀ it : Iteration, it.window.Sound → Progress it (repeatNext visit n it).2 := by
  induction n with
  | zero => exact fun it _ => .same rfl
  | succ n ih =>
    intro it hw
    have honward : it.window.Onward 0 (next it).2.window :=
      keeps_window_next Window.forth_advance it hw
    have hprogress := progress_next it
    unfold repeatNext
    cases hnext : next it with
    | mk result it₁ =>
      rw [hnext] at honward hprogress
      cases result with
      | error e =>
        rw [Action.bind_of_error hnext]
        exact hprogress
      | ok base =>
        rw [Action.bind_of_ok hnext]
        have hvisit : it₁.window.Onward 0 (visit base it₁.window).2 :=
          hv base it₁.window (honward.sound hw)
        cases hrun : visit base it₁.window with
        | mk result w =>
          rw [hrun] at hvisit
          have hpart : onWindow (visit base) it₁ = (result, { it₁ with window := w }) := by
            rw [onWindow, Action.onPart_apply, hrun]
          -- The position of a later element is behind that of the one before, as visits go onward.
          have hmoved : Progress it { it₁ with window := w } :=
            hprogress.moved rfl hvisit.position_le
          cases result with
          | error e =>
            rw [Action.bind_of_error hpart]
            exact hmoved
          | ok _ =>
            rw [Action.bind_of_ok hpart]
            have hsound := hvisit.sound (honward.sound hw)
            have hrest : w.Onward 0 (repeatNext visit n { it₁ with window := w }).2.window :=
              keeps_window_repeatNext Window.forth_advance hv n { it₁ with window := w } hsound
            exact hmoved.trans (ih _ hsound) (Nat.le_trans honward.position_le hvisit.position_le)
              hrest.position_le

theorem progress_skip {it : Iteration} (hw : it.window.Sound) : Progress it (skip it).2 :=
  progress_repeatNext (fun _ => (keeps_skipFields Window.forth_advance).table _) _ it hw

end Iteration

end SimpleBinary
