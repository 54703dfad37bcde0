import Mathlib.Tactic.Set
import SimpleBinary.Market.Schema
import SimpleBinary.Proofs.Data
import SimpleBinary.Proofs.Frame
import SimpleBinary.Proofs.Keeping

namespace SimpleBinary

inductive DataChoice where
  | value
  | valueArray
  | skip

inductive GroupChoice where
  | skip
  | each
  | first (count : Nat)

/-- What is chosen for every group and all data, by the numbers of the fields and elements on the
way there, the last one first. -/
structure Choices where
  data : List Nat → DataChoice
  group : List Nat → GroupChoice

def DataChoice.run (choice : DataChoice) (d : DataView) : Action Window Unit :=
  match choice with
  | value => discard d.value
  | valueArray => discard d.valueArray
  | skip => discard d.skip

def Iteration.visitNext (visit : Nat → Nat → Action Window Unit) : Nat → Action Iteration Unit
  | 0 => return
  | n + 1 => do
    let index := (← get).group.index
    let base ← next
    onWindow (visit index base)
    visitNext visit n

def GroupChoice.run (visit : Nat → Nat → Action Window Unit) : GroupChoice → Action Iteration Unit
  | skip => Iteration.skip
  | each => do Iteration.visitNext visit (← get).group.remaining
  | first count => do
    Iteration.visitNext visit (min count (← get).group.remaining)
    Iteration.skip

mutual

def Field.visit (choices : Choices) (path : List Nat) (base : Nat) : Field → Action Window Unit
  | f@⟨_, _, _, .group g, _, _, _⟩ => do
    let view ← GroupView.ofBinding (f.bindAt base true (← get).version)
    Iteration.run view ((choices.group path).run fun index base =>
      visitFields choices (index :: path) 0 base g.fields)
  | f@⟨_, _, _, .data _, _, _, _⟩ => do
    let view ← DataView.ofBinding (f.bindAt base true (← get).version)
    (choices.data path).run view
  | _ => return

def visitFields (choices : Choices) (path : List Nat) (number base : Nat) :
    List Field → Action Window Unit
  | [] => return
  | f :: rest => do
    f.visit choices (number :: path) base
    visitFields choices path (number + 1) base rest

end

def Message.visit (choices : Choices) : Action Message Nat := do
  modify rewind
  let m ← get
  onWindow (visitFields choices [] 0 m.offset m.definition.fields)
  return (← get).position

namespace Field

variable {f : Field} {choices : Choices} {path : List Nat} {base : Nat}

theorem visit_of_fixed (h : ∀ g, f.kind ≠ .group g) (h' : ∀ d, f.kind ≠ .data d) :
    f.visit choices path base = return := by
  obtain ⟨name, id, offset, kind, presence, constant, since⟩ := f
  cases kind with
  | group g => exact absurd rfl (h g)
  | data d => exact absurd rfl (h' d)
  | _ => rfl

theorem visit_group {g : GroupDef} (hk : f.kind = .group g) :
    f.visit choices path base = (do
      let view ← GroupView.bind f g (f.inVersion (← get).version)
      Iteration.run view ((choices.group path).run fun index base =>
        visitFields choices (index :: path) 0 base g.fields)) := by
  obtain ⟨name, id, offset, kind, presence, constant, since⟩ := f
  cases hk
  rfl

theorem visit_data {d : DataDef} (hk : f.kind = .data d) :
    f.visit choices path base = (do
      (choices.data path).run ⟨f, d, f.inVersion (← get).version⟩) := by
  obtain ⟨name, id, offset, kind, presence, constant, since⟩ := f
  cases hk
  rfl

end Field

namespace DataView

variable {d : DataView}

theorem discard_value (d : DataView) : (discard d.value : Action Window Unit) = discard d.skip := by
  funext w
  rw [Action.discard_apply, Action.discard_apply]
  cases hv : d.visible with
  | false => simp only [value, skip, hv, Bool.not_false, if_true, Action.pure_apply, Except.map]
  | true =>
    cases hp : d.payload w with
    | error e => rw [value_of_error hv hp, skip_of_error hv hp]; rfl
    | ok place =>
      obtain ⟨count, hlength, -⟩ := payload_eq_ok hp
      rw [value_of_payload hv hp, skip_of_payload hv hlength hp]
      cases (Window.advance (wordOf (d.headerLength + place.2)) w).1 <;> rfl

theorem discard_valueArray (d : DataView) :
    (discard d.valueArray : Action Window Unit) = discard d.value := by
  funext w
  unfold valueArray
  rw [Action.discard_apply, Action.discard_apply, Action.bind_apply]
  cases d.value w with
  | mk result v => cases result <;> rfl

end DataView

theorem DataChoice.run_eq (choice : DataChoice) (d : DataView) :
    choice.run d = discard d.skip := by
  cases choice with
  | value => exact d.discard_value
  | valueArray => exact d.discard_valueArray.trans d.discard_value
  | skip => rfl

namespace Iteration

theorem visitNext_eq {visit : Nat → Nat → Action Window Unit} {step : Action Window Unit}
    (hv : ∀ index base, visit index base = step) (n : Nat) :
    visitNext visit n = repeatNext (fun _ => step) n := by
  induction n with
  | zero => rfl
  | succ n ih =>
    funext it
    simp only [visitNext, repeatNext, hv, ih, Action.bind_apply, Action.get_apply]

theorem repeatNext_add (visit : Nat → Action Window Unit) (m n : Nat) :
    repeatNext visit (m + n) = repeatNext visit m >>= fun _ => repeatNext visit n := by
  induction m with
  | zero => rw [Nat.zero_add]; rfl
  | succ m ih => simp only [Nat.succ_add, repeatNext, ih, bind_assoc]

theorem visited_of_repeatNext {visit : Nat → Action Window Unit} (n : Nat) :
    ∀ {it it' : Iteration}, repeatNext visit n it = (.ok ⟨⟩, it') →
      it'.group =
        { it.group with index := it.group.index + n, current := it'.group.current } := by
  induction n with
  | zero =>
    rintro it it' h
    cases h
    rfl
  | succ n ih =>
    rintro ⟨g, w⟩ it' h
    obtain ⟨base, it₁, hnext, h⟩ := Action.bind_eq_ok h
    obtain ⟨-, rfl⟩ := next_eq_ok hnext
    obtain ⟨_, it₂, hvisit, h⟩ := Action.bind_eq_ok h
    have hgroup : it₂.group = g.entered base := by
      rw [onWindow, Action.onPart_apply] at hvisit
      rw [← (Prod.mk.inj hvisit).2]
    have hindex : g.index + 1 + n = g.index + (n + 1) := by omega
    refine (ih h).trans ?_
    rw [hgroup, GroupView.entered, hindex]

theorem group_of_repeatNext {visit : Nat → Action Window Unit} {n : Nat} {it it' : Iteration}
    (h : repeatNext visit n it = (.ok ⟨⟩, it')) :
    it'.group.definition = it.group.definition ∧
      it'.group.remaining = it.group.remaining - n := by
  rw [visited_of_repeatNext n h]
  exact ⟨rfl, (Nat.sub_sub _ _ _).symm⟩

end Iteration

theorem GroupChoice.run_eq (choice : GroupChoice) (it : Iteration)
    {visit : Nat → Nat → Action Window Unit}
    (hv : ∀ index base, visit index base = skipFields it.group.definition.fields) :
    choice.run visit it = Iteration.skip it := by
  cases choice with
  | skip => rfl
  | each =>
    have heach : Iteration.visitNext visit it.group.remaining it =
        Iteration.repeatNext (fun _ => skipFields it.group.definition.fields)
          it.group.remaining it := by
      rw [Iteration.visitNext_eq hv]
    exact heach
  -- Skipping goes on from the element that the visits leave, so it makes up for the rest.
  | first count =>
    obtain ⟨rest, hrest⟩ := Nat.exists_eq_add_of_le (Nat.min_le_right count it.group.remaining)
    have hfirst : GroupChoice.run visit (first count) it =
        (Iteration.repeatNext (fun _ => skipFields it.group.definition.fields)
          (min count it.group.remaining) >>= fun _ => Iteration.skip) it := by
      rw [← Iteration.visitNext_eq hv]
      rfl
    have hskip : Iteration.skip it =
        (Iteration.repeatNext (fun _ => skipFields it.group.definition.fields)
          (min count it.group.remaining) >>= fun _ =>
            Iteration.repeatNext (fun _ => skipFields it.group.definition.fields) rest) it := by
      rw [← Iteration.repeatNext_add, ← hrest]
      rfl
    rw [hfirst, hskip]
    cases hx : Iteration.repeatNext (fun _ => skipFields it.group.definition.fields)
        (min count it.group.remaining) it with
    | mk result it' =>
      cases result with
      | error e => rw [Action.bind_of_error hx, Action.bind_of_error hx]
      | ok a =>
        obtain ⟨hdefinition, hremaining⟩ := Iteration.group_of_repeatNext hx
        rw [Action.bind_of_ok hx, Action.bind_of_ok hx]
        change Iteration.repeatNext (fun _ => skipFields it'.group.definition.fields)
          it'.group.remaining it' = _
        rw [hdefinition, hremaining]
        congr 1
        omega

theorem visit_eq_skip (choices : Choices) :
    TableInduction (fun f => ∀ path base, f.visit choices path base = f.skip)
      (fun fields => ∀ path number base,
        visitFields choices path number base fields = skipFields fields) := by
  apply TableInduction.of_fixed
  · intro f h h' path base
    rw [Field.visit_of_fixed h h', Field.skip_of_fixed h h']
  · intro f g hk ih path base
    rw [Field.visit_group hk, Field.skip_group hk]
    funext w
    change (GroupView.bind f g (f.inVersion w.version) >>= _ : Action Window Unit) w =
      (GroupView.bind f g (f.inVersion w.version) >>= _ : Action Window Unit) w
    cases hbind : GroupView.bind f g (f.inVersion w.version) w with
    | mk result v =>
      cases result with
      | error e => rw [Action.bind_of_error hbind, Action.bind_of_error hbind]
      | ok view =>
        obtain rfl := GroupView.definition_of_bind hbind
        have hsteps := (choices.group path).run_eq ⟨view, v⟩
          fun index base => ih (index :: path) 0 base
        rw [Action.bind_of_ok hbind, Action.bind_of_ok hbind, Iteration.run, hsteps]
        rfl
  · intro f d hk path base
    rw [Field.visit_data hk, Field.skip_data hk]
    funext w
    exact congrFun (DataChoice.run_eq _ _) w
  · intro path number base
    rfl
  · intro f rest hf ih path number base
    rw [visitFields, skipFields, hf, ih]

def Market.Snapshot.twoEntries : Bytes :=
  List.replicate 28 0 ++ [33, 0, 2] ++ List.replicate 66 0 ++ [2, 104, 105]

namespace Message

def stop (m : Message) : Except Error Nat :=
  ((skipFields m.definition.fields).complete m.rewind.window).map fun (_, w) => w.position

theorem result_visit (choices : Choices) (m : Message) : (visit choices m).1 = m.stop := by
  have hvisit : visitFields choices [] 0 m.rewind.offset m.rewind.definition.fields =
      skipFields m.definition.fields := (visit_eq_skip choices).table _ _ _ _
  simp only [visit, Action.bind_apply, Action.modify_apply, Action.get_apply, hvisit, onWindow,
    Action.onPart_apply, stop, Action.complete]
  rcases skipFields m.definition.fields m.rewind.window with ⟨result, w⟩
  cases result <;> rfl

theorem result_skip (m : Message) : (skip m).1 = m.stop.map (· - m.offset) := by
  have hdefinition : m.rewind.definition = m.definition := rfl
  simp only [skip, Action.bind_apply, Action.modify_apply, Action.get_apply, hdefinition, onWindow,
    Action.onPart_apply, stop, Action.complete]
  rcases skipFields m.definition.fields m.rewind.window with ⟨result, w⟩
  cases result <;> rfl

theorem stop_of_frame {m m' : Message} (h : m'.frame = m.frame)
    (hle : m.offset + m.blockLength ≤ m.window.limit) : m'.stop = m.stop := by
  have hdefinition : m'.definition = m.definition := (congrArg definition h :)
  rw [stop, hdefinition, rewind_of_frame h hle]
  rfl

/-- However the groups and data of a message are visited after it was read from, the visits all end
at one position or all with one error, and that is also what skipping comes to. -/
theorem visit_any_choices (wrapping : Wrapping) (definition : MessageDef) (bytes bytes' : Bytes)
    (m : Message) (hm : wrapping.wrap definition bytes = (.ok m, bytes')) :
    ∃ outcome : Except Error Nat, ∀ steps : List Step, (∀ step ∈ steps, step.2.readsOnly) →
      ∀ reached, reached = (Session.runSteps steps ⟨m, []⟩).2.message →
        (∀ choices, (visit choices reached).1 = outcome) ∧
          (skip reached).1 = outcome.map (· - m.offset) := by
  refine ⟨m.stop, ?_⟩
  rintro steps hsteps reached hreached
  have hframe : reached.frame = m.frame := by
    rw [hreached]
    exact Session.frame_runSteps steps hsteps ⟨m, []⟩
  have hoffset : reached.offset = m.offset := (congrArg offset hframe :)
  have hstop := stop_of_frame hframe (Wrapping.block_le hm)
  constructor
  · intro choices
    rw [result_visit, hstop]
  · rw [result_skip, hstop, hoffset]

theorem visit_any_choices_snapshot :
    ∃ m, (Wrapping.decode 0 100 28 2).wrap Market.Snapshot.definition Market.Snapshot.twoEntries =
        (.ok m, Market.Snapshot.twoEntries) ∧
      ∀ choices, (visit choices (Session.runSteps
        [⟨Bytes, .data (.field .body (.name "memo")) .value⟩, ⟨Nat, .next 0⟩]
        ⟨m, []⟩).2.message).1 = .ok 100 := by
  obtain ⟨outcome, h⟩ := visit_any_choices (.decode 0 100 28 2) Market.Snapshot.definition
    Market.Snapshot.twoEntries Market.Snapshot.twoEntries _ rfl
  obtain ⟨hvisit, -⟩ := h [] (by simp) _ rfl
  obtain ⟨hvisit', -⟩ := h [⟨Bytes, .data (.field .body (.name "memo")) .value⟩, ⟨Nat, .next 0⟩]
    (by simp [Operation.readsOnly, DataOperation.readsOnly]) _ rfl
  have hfirst := hvisit ⟨fun _ => .valueArray, fun _ => .first 1⟩
  refine ⟨_, rfl, ?_⟩
  intro choices
  rw [hvisit', ← hfirst]
  rfl

end Message

end SimpleBinary
