import SimpleBinary.Proofs.Edits
import SimpleBinary.Proofs.OlderSchema
import SimpleBinary.Proofs.Visits

/-!
A group skipped from the middle of its iteration. What the visited elements hold behind their fixed
part has to be passed by whoever visits them, since skipping goes on where the position is; then it
ends where it would have ended from the first element on.
-/

namespace SimpleBinary

structure Look where
  type : Type
  binding : Binding
  operation : FieldOperation type
  readsOnly : operation.readsOnly = true

def Look.run (look : Look) : Action Window Unit :=
  fun w => (.ok ⟨⟩, (look.operation.run look.binding w).2)

def lookAt : List Look → Action Window Unit
  | [] => return
  | look :: rest => do
    look.run
    lookAt rest

theorem lookAt_apply (looks : List Look) (w : Window) : lookAt looks w = (.ok ⟨⟩, w) := by
  induction looks with
  | nil => rfl
  | cons look rest ih =>
    have hlook : look.run w = (.ok ⟨⟩, w) := by
      rw [Look.run, FieldOperation.run_of_readsOnly look.readsOnly]
    rw [lookAt, Action.bind_of_ok hlook, ih]

theorem Field.skip_of_isFixed {f : Field} (hf : f.isFixed) (w : Window) :
    f.skip w = (.ok ⟨⟩, w) := by
  obtain ⟨name, id, offset, kind, presence, constant, since⟩ := f
  cases kind with
  | group g => cases hf
  | data d => cases hf
  | _ => rfl

theorem skipFields_of_fixed {fields : List Field} {w : Window}
    (h : ∀ f ∈ fields, f.isFixed ∨ f.inVersion w.version = false) :
    skipFields fields w = (.ok ⟨⟩, w) := by
  induction fields with
  | nil => rfl
  | cons f rest ih =>
    obtain ⟨hf, hrest⟩ := List.forall_mem_cons.mp h
    have hskip : f.skip w = (.ok ⟨⟩, w) := by
      rcases hf with hf | hf
      · exact Field.skip_of_isFixed hf w
      · exact Field.skip_of_invisible hf
    rw [skipFields, Action.bind_of_ok hskip, ih hrest]

namespace Iteration

variable {visit : Nat → Nat → Action Window Unit} {it stop : Iteration}

theorem visitNext_of_version {step : Action Window Unit} {version : UInt16}
    (hv : ∀ index base w, w.version = version → visit index base w = step w)
    (hs : Keeps Window.version step) (n : Nat) :
    ∀ it : Iteration, it.window.version = version →
      visitNext visit n it = repeatNext (fun _ => step) n it := by
  induction n with
  | zero => exact fun _ _ => rfl
  | succ n ih =>
    intro it hw
    unfold visitNext repeatNext
    rw [Action.bind_of_ok (Action.get_apply it)]
    have hversion : (next it).2.window.version = version :=
      (Window.version_of_frame (keeps_window_next Window.keeps_advance it)).trans hw
    cases hnext : next it with
    | mk result it₁ =>
      rw [hnext] at hversion
      cases result with
      | error e => rw [Action.bind_of_error hnext, Action.bind_of_error hnext]
      | ok base =>
        rw [Action.bind_of_ok hnext, Action.bind_of_ok hnext, Action.bind_apply,
          Action.bind_apply, onWindow, onWindow, Action.onPart_apply, Action.onPart_apply,
          hv _ _ _ hversion]
        have hafter := (hs it₁.window).trans hversion
        rcases hstep : step it₁.window with ⟨e | _, w⟩
        · rfl
        · rw [hstep] at hafter
          exact ih _ hafter

/-- Skipping goes on from wherever the visits leave off, if they pass what is nested. -/
theorem skip_after_visits (hstop : skip it = (.ok ⟨⟩, stop)) {k : Nat}
    (hk : k ≤ it.group.remaining)
    (hv : ∀ index base w, w.version = it.window.version →
      visit index base w = skipFields it.group.definition.fields w) :
    ∃ mid, visitNext visit k it = (.ok ⟨⟩, mid) ∧ mid.group.index = it.group.index + k ∧
      skip mid = (.ok ⟨⟩, stop) := by
  obtain ⟨rest, hrest⟩ := Nat.exists_eq_add_of_le hk
  have hkeeps : Keeps Window.version (skipFields it.group.definition.fields) :=
    Keeps.comp ((keeps_skipFields Window.keeps_advance).table _) Window.version
  change repeatNext (fun _ => skipFields it.group.definition.fields) it.group.remaining it = _
    at hstop
  rw [hrest, repeatNext_add] at hstop
  obtain ⟨_, mid, hmid, hstop⟩ := Action.bind_eq_ok hstop
  obtain ⟨hdefinition, hremaining⟩ := group_of_repeatNext hmid
  have hindex : mid.group.index = it.group.index + k := by rw [visited_of_repeatNext k hmid]
  refine ⟨mid, ?_, hindex, ?_⟩
  · rw [visitNext_of_version hv hkeeps k it rfl, hmid]
  · change repeatNext (fun _ => skipFields mid.group.definition.fields) mid.group.remaining mid = _
    rw [hdefinition, hremaining, hrest, Nat.add_sub_cancel_left, hstop]

theorem skip_from_midway (b : Binding) (w v : Window) (g : GroupView)
    (hb : GroupView.ofBinding b w = (.ok g, v)) (stop : Iteration)
    (hstop : skip ⟨g, v⟩ = (.ok ⟨⟩, stop)) (k : Nat) (hk : k ≤ g.count)
    (looks : Nat → Nat → List Look) :
    (∀ choices path, ∃ mid,
      visitNext (fun index base => do
        lookAt (looks index base)
        visitFields choices (index :: path) 0 base g.definition.fields) k ⟨g, v⟩ = (.ok ⟨⟩, mid) ∧
      mid.group.index = k ∧ skip mid = (.ok ⟨⟩, stop)) ∧
    ((∀ f ∈ g.definition.fields, f.isFixed ∨ f.inVersion v.version = false) → ∃ mid,
      visitNext (fun index base => lookAt (looks index base)) k ⟨g, v⟩ = (.ok ⟨⟩, mid) ∧
      mid.group.index = k ∧ skip mid = (.ok ⟨⟩, stop)) := by
  obtain ⟨d, -, hbind⟩ := GroupView.ofBinding_eq_ok hb
  have hindex : g.index = 0 := (GroupView.bind_eq_ok hbind).1
  have hremaining : k ≤ (Iteration.mk g v).group.remaining := by
    rw [GroupView.remaining, hindex]
    exact hk
  -- Either way a visit does what skipping the element does, and that is all that is needed.
  have hvisits {visit : Nat → Nat → Action Window Unit}
      (hv : ∀ index base u, u.version = v.version →
        visit index base u = skipFields g.definition.fields u) :
      ∃ mid, visitNext visit k ⟨g, v⟩ = (.ok ⟨⟩, mid) ∧ mid.group.index = k ∧
        skip mid = (.ok ⟨⟩, stop) := by
    obtain ⟨mid, hmid, hat, hskip⟩ := skip_after_visits hstop hremaining hv
    exact ⟨mid, hmid, by rw [hat, hindex, Nat.zero_add], hskip⟩
  constructor
  · intro choices path
    apply hvisits
    intro index base u _
    rw [Action.bind_of_ok (lookAt_apply _ u), (visit_eq_skip choices).table]
  · intro hfixed
    apply hvisits
    intro index base u hu
    rw [lookAt_apply, skipFields_of_fixed (by rwa [hu])]

end Iteration

namespace Market

def notesGroup : GroupDef :=
  { name := "notes"
    dimension := Composites.groupSizeEncoding
    blockLengthMember := ⟨0, .uint16⟩
    numInGroupMember := ⟨2, .uint8⟩
    blockLength := 0
    fields := [Snapshot.Fields.memo] }

def notes : Field :=
  .required "notes" 268 0 (.group notesGroup)

end Market

namespace Iteration

theorem skip_from_midway_notes :
    ∃ mid, visitNext (fun index base => do
        lookAt []
        visitFields ⟨fun _ => .value, fun _ => .skip⟩ [index] 0 base Market.notesGroup.fields) 1
      ⟨⟨Market.notes, Market.notesGroup, 0, 0, 2, 0, none, true⟩,
        ⟨[0, 0, 2, 1, 97, 2, 98, 99], 8, 3, 2, by decide⟩⟩ = (.ok ⟨⟩, mid) ∧
      mid.group.index = 1 ∧ (skip mid).2.window.position = 8 := by
  have hbound : GroupView.ofBinding ⟨Market.notes, 0, true⟩
      ⟨[0, 0, 2, 1, 97, 2, 98, 99], 8, 0, 2, by decide⟩ =
        (.ok ⟨Market.notes, Market.notesGroup, 0, 0, 2, 0, none, true⟩,
          ⟨[0, 0, 2, 1, 97, 2, 98, 99], 8, 3, 2, by decide⟩) := rfl
  have hstop : skip ⟨⟨Market.notes, Market.notesGroup, 0, 0, 2, 0, none, true⟩,
      ⟨[0, 0, 2, 1, 97, 2, 98, 99], 8, 3, 2, by decide⟩⟩ =
        (.ok ⟨⟩, ⟨⟨Market.notes, Market.notesGroup, 0, 0, 2, 2, some 5, true⟩,
          ⟨[0, 0, 2, 1, 97, 2, 98, 99], 8, 8, 2, by decide⟩⟩) := rfl
  obtain ⟨hvisited, -⟩ := skip_from_midway _ _ _ _ hbound _ hstop 1 (by decide) fun _ _ => []
  obtain ⟨mid, hmid, hindex, hskip⟩ := hvisited ⟨fun _ => .value, fun _ => .skip⟩ []
  exact ⟨mid, hmid, hindex, by rw [hskip]⟩

theorem unread_note_taken_for_next :
    GroupOf.checked "notes" Market.Composites.groupSizeEncoding 0 [Market.Snapshot.Fields.memo] =
        .ok Market.notesGroup ∧
      ∃ g v stop base mid stop',
        GroupView.ofBinding ⟨Market.notes, 0, true⟩ ⟨[0, 0, 1, 2, 104, 105], 6, 0, 2, by decide⟩ =
          (.ok g, v) ∧
        skip ⟨g, v⟩ = (.ok ⟨⟩, stop) ∧ stop.window.position = 6 ∧
        1 ≤ g.count ∧ next ⟨g, v⟩ = (.ok base, mid) ∧
        skip mid = (.ok ⟨⟩, stop') ∧ stop'.window.position = 3 :=
  ⟨rfl, _, _, _, _, _, _, rfl, rfl, rfl, by decide, rfl, rfl, rfl⟩

end Iteration

end SimpleBinary
