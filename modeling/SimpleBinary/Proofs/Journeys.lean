import Mathlib.Data.List.Sort
import SimpleBinary.Proofs.Interleaving
import SimpleBinary.Proofs.LongerBlocks

/-!
Runs with their operations in another order. The operations on groups and data are counted, and an
operation on a field belongs to the one that opened its block. When every operation on a field is
done right behind the one it belongs to, each operation gives the same as before.
-/

namespace SimpleBinary

def Step.traverses (step : Step) : Bool :=
  step.2.owner?.isNone

/-- A session under way: how many operations on groups and data there were, and in whose turn the
block of each owner was opened. -/
structure Journey where
  session : Session
  turn : Nat
  opened : Owner → Nat

structure Record where
  step : Step
  result : Except Error step.1
  position? : Option Nat
  turn : Nat

structure Record.Of (r : Record) (o : Observation) : Prop where
  observation_eq : o = ⟨r.step.1, r.result, o.position⟩
  position_eq (position : Nat) (h : r.position? = some position) : o.position = position

namespace Journey

def start (s : Session) : Journey :=
  ⟨s, 0, fun _ => 0⟩

def reopened (j : Journey) (t : Session) (owner : Owner) : Nat :=
  if t.visits owner = j.session.visits owner then j.opened owner else j.turn + 1

def after (j : Journey) (step : Step) : Journey :=
  let t := (step.2.run j.session).2
  match step.2.owner? with
  | some _ => { j with session := t }
  | none => ⟨t, j.turn + 1, j.reopened t⟩

def record (j : Journey) (step : Step) : Record :=
  let result := (step.2.run j.session).1
  match step.2.owner? with
  | some owner => ⟨step, result, none, j.opened owner⟩
  | none => ⟨step, result, some (step.2.run j.session).2.window.position, j.turn + 1⟩

def run : List Step → Journey → List Record × Journey
  | [], j => ([], j)
  | step :: rest, j =>
    let (records, last) := run rest (j.after step)
    (j.record step :: records, last)

variable {j : Journey} {step : Step} {owner : Owner}

theorem reopened_of_eq {t : Session} (h : t.visits owner = j.session.visits owner) :
    j.reopened t owner = j.opened owner :=
  if_pos h

theorem reopened_of_ne {t : Session} (h : t.visits owner ≠ j.session.visits owner) :
    j.reopened t owner = j.turn + 1 :=
  if_neg h

theorem run_cons (rest : List Step) :
    run (step :: rest) j = (j.record step :: (run rest (j.after step)).1,
      (run rest (j.after step)).2) := rfl

theorem after_field (h : step.2.owner? = some owner) :
    j.after step = { j with session := (step.2.run j.session).2 } := by
  simp only [after, h]

theorem after_onward (h : step.2.owner? = none) :
    j.after step =
      ⟨(step.2.run j.session).2, j.turn + 1, j.reopened (step.2.run j.session).2⟩ := by
  simp only [after, h]

theorem record_field (h : step.2.owner? = some owner) :
    j.record step = ⟨step, (step.2.run j.session).1, none, j.opened owner⟩ := by
  simp only [record, h]

theorem record_onward (h : step.2.owner? = none) :
    j.record step = ⟨step, (step.2.run j.session).1,
      some (step.2.run j.session).2.window.position, j.turn + 1⟩ := by
  simp only [record, h]

@[simp] theorem after_session : (j.after step).session = (step.2.run j.session).2 := by
  cases h : step.2.owner? with
  | some owner => rw [after_field h]
  | none => rw [after_onward h]

@[simp] theorem record_step : (j.record step).step = step := by
  cases h : step.2.owner? with
  | some owner => rw [record_field h]
  | none => rw [record_onward h]

theorem session_run (steps : List Step) :
    (run steps j).2.session = (Session.runSteps steps j.session).2 := by
  induction steps generalizing j with
  | nil => rfl
  | cons step rest ih =>
    rw [run_cons, ih, after_session]
    rfl

theorem of_record : (j.record step).Of
    ⟨step.1, (step.2.run j.session).1, (step.2.run j.session).2.message.position⟩ := by
  cases h : step.2.owner? with
  | some owner =>
    rw [record_field h]
    exact ⟨rfl, fun _ hp => by cases hp⟩
  | none =>
    rw [record_onward h]
    exact ⟨rfl, fun _ hp => Option.some.inj hp⟩

theorem of_run (steps : List Step) :
    List.Forall₂ Record.Of (run steps j).1 (Session.runSteps steps j.session).1 := by
  induction steps generalizing j with
  | nil => exact .nil
  | cons step rest ih =>
    refine .cons of_record ?_
    have hrest := ih (j := j.after step)
    rwa [after_session] at hrest

theorem run_filter {steps : List Step} {s s' : Session} {turn : Nat} {opened : Owner → Nat}
    (h : s.Agrees (s.window.position ≤ ·) s') (hs : s'.Spread) (ho : Session.Orderly steps s') :
    (run (steps.filter Step.traverses) ⟨s, turn, opened⟩).1 =
      (run steps ⟨s', turn, opened⟩).1.filter fun r => r.step.traverses := by
  induction steps generalizing s s' turn opened with
  | nil => rfl
  | cons step rest ih =>
    have hspread := ho.1.spread hs
    cases hstep : step.2.owner? with
    | some owner =>
      have hfield : step.traverses = false := by rw [Step.traverses, hstep]; rfl
      obtain ⟨e, he, hlocal⟩ := ho.1.local hs hstep
      obtain ⟨start, part, -, hstop, hrun⟩ := hlocal.run_eq he (hs.stop_le_limit he)
      have hsettled := hs.settled owner e he
      rw [run_cons, List.filter_cons_of_neg (by simp [hfield]),
        List.filter_cons_of_neg (by simp [hfield]), after_field hstep]
      -- What is written lies before the position, where the other run need not agree.
      refine ih (h.trans ?_) hspread ho.2
      rw [hrun]
      apply Session.agrees_written hs.sound (Nat.le_trans hstop (hs.stop_le_limit he))
      intro i hi
      rw [← h.window.position_eq] at hi
      exact .inr (Nat.le_trans hstop (Nat.le_trans hsettled.stop_le hi))
    | none =>
      have htraverses : step.traverses = true := by rw [Step.traverses, hstep]; rfl
      have honward := h.goesOnward_iff.mp (ho.1.goesOnward hstep)
      have hsound := h.window.symm.sound hs.sound
      have hpassage := Operation.passage hsound honward
      obtain ⟨hresult, hrelated⟩ :=
        Operation.alike_of_agrees honward hsound h fun _ hi => hi
      have hreopened : reopened ⟨s', turn, opened⟩ (step.2.run s').2 =
          reopened ⟨s, turn, opened⟩ (step.2.run s).2 := by
        funext owner
        simp only [reopened, h.visits_eq, hrelated.visits_eq]
      rw [List.filter_cons_of_pos htraverses, run_cons, run_cons,
        List.filter_cons_of_pos (by rw [record_step]; exact htraverses), record_onward hstep,
        record_onward hstep, after_onward hstep, after_onward hstep, hreopened, hresult,
        hrelated.window.position_eq]
      exact congrArg (List.cons _)
        (ih (hrelated.mono fun _ hi => Nat.le_trans hpassage.position_le hi) hspread ho.2)

structure Regular (j : Journey) : Prop where
  spread : j.session.Spread
  opened_le (owner : Owner) : j.opened owner ≤ j.turn

theorem Regular.start {s : Session} (hs : s.Spread) : (start s).Regular :=
  ⟨hs, fun _ => Nat.le_refl _⟩

theorem Regular.after (hj : j.Regular) (h : j.session.Allows step.2) : (j.after step).Regular where
  spread := by
    rw [after_session]
    exact h.spread hj.spread
  opened_le owner := by
    have hle := hj.opened_le owner
    cases ho : step.2.owner? with
    | some _ =>
      rw [after_field ho]
      exact hle
    | none =>
      rw [after_onward ho]
      simp only [reopened]
      split <;> omega

inductive Recorded : Journey → List Record → Journey → Prop
  | nil {j : Journey} : Recorded j [] j
  | cons {j last : Journey} {step : Step} {records : List Record} (h : j.session.Allows step.2)
    (hrest : Recorded (j.after step) records last) : Recorded j (j.record step :: records) last

theorem Recorded.of_orderly {steps : List Step} (h : Session.Orderly steps j.session) :
    Recorded j (run steps j).1 (run steps j).2 := by
  induction steps generalizing j with
  | nil => exact .nil
  | cons step rest ih =>
    refine .cons h.1 (ih ?_)
    rw [after_session]
    exact h.2

theorem Recorded.run_eq {records : List Record} {last : Journey} (h : Recorded j records last) :
    Session.Orderly (records.map Record.step) j.session ∧
      run (records.map Record.step) j = (records, last) := by
  induction h with
  | nil => exact ⟨trivial, rfl⟩
  | @cons j last step records h hrest ih =>
    rw [List.map_cons, record_step, run_cons, ih.2]
    rw [after_session] at ih
    exact ⟨⟨h, ih.1⟩, rfl⟩

structure Swaps (j : Journey) (x y : Step) : Prop where
  allows : j.session.Allows y.2
  allows_after : (j.after y).session.Allows x.2
  record_eq : j.record y = (j.after x).record y
  record_after : (j.after y).record x = j.record x
  after_eq : (j.after y).after x = (j.after x).after y

theorem Swaps.of_fields {x y : Step} {owner owner' : Owner} (hj : j.Regular)
    (hx : j.session.Allows x.2) (hy : (j.after x).session.Allows y.2)
    (hxo : x.2.owner? = some owner) (hyo : y.2.owner? = some owner') (hne : owner ≠ owner') :
    j.Swaps x y := by
  rw [after_session] at hy
  obtain ⟨e, he, hxlocal⟩ := hx.local hj.spread hxo
  obtain ⟨e', he', hylocal⟩ := hy.local (hx.spread hj.spread) hyo
  obtain ⟨start, part, -, -, hrun⟩ := hxlocal.run_eq he (hj.spread.stop_le_limit he)
  have hopen : j.session.extent? owner' = some e' := by
    rwa [hrun, Session.extent?_written] at he'
  have hversion : j.session.message.version = (x.2.run j.session).2.message.version := by
    rw [hrun]
    rfl
  have hfirst : j.session.Allows y.2 := hy.of_extent hyo he' hopen hversion
  obtain ⟨hyresult, hxresult, hafter⟩ :=
    Session.local_swap hj.spread hne he hopen hxlocal hylocal
  obtain ⟨start', part', -, hrun'⟩ := hfirst.run_field hj.spread hyo
  refine ⟨hfirst, ?_, ?_, ?_, ?_⟩
  · rw [after_session, hrun']
    exact hx.of_extent hxo he (Session.extent?_written.trans he) rfl
  · rw [record_field hyo, record_field hyo, after_field hxo, hyresult]
  · rw [record_field hxo, record_field hxo, after_field hyo, hxresult]
  · rw [after_field hxo, after_field hyo, after_field hxo, after_field hyo, hafter]

theorem Swaps.of_onward {x y : Step} {owner : Owner} (hj : j.Regular)
    (hx : j.session.Allows x.2) (hy : (j.after x).session.Allows y.2) (hxo : x.2.owner? = none)
    (hyo : y.2.owner? = some owner)
    (hvisits : (x.2.run j.session).2.visits owner = j.session.visits owner) : j.Swaps x y := by
  rw [after_session] at hy
  have honward := hx.goesOnward hxo
  have hpassage := Operation.passage hj.spread.sound honward
  have hspread := hpassage.spread hj.spread
  obtain ⟨e, he, hylocal⟩ := hy.local hspread hyo
  have hopen := hpassage.extent_of_visits he hvisits
  have hfirst : j.session.Allows y.2 := hy.of_extent hyo he hopen hpassage.version_eq.symm
  obtain ⟨hyresult, hxresult, hafter⟩ :=
    Session.onward_swap hj.spread honward hopen he hylocal
  obtain ⟨start, part, -, hrun⟩ := hfirst.run_field hj.spread hyo
  obtain ⟨start', part', -, -, hrun'⟩ := hylocal.run_eq he (hspread.stop_le_limit he)
  refine ⟨hfirst, ?_, ?_, ?_, ?_⟩
  · rw [after_session, hrun]
    exact Session.allows_of_goesOnward (Session.goesOnward_written.mpr honward)
  · simp only [record_field hyo, after_onward hxo, hyresult, reopened_of_eq hvisits]
  · rw [record_onward hxo, record_onward hxo, after_field hyo, hxresult, hafter, hrun']
    rfl
  · rw [after_onward hxo, after_field hyo, after_field hyo, after_onward hxo, hafter]
    congr 1
    funext owner'
    simp only [reopened, hrun, hrun', Session.visits_written]

theorem Swaps.of_lt {x y : Step} (hj : j.Regular) (hx : j.session.Allows x.2)
    (hy : (j.after x).session.Allows y.2) (hlt : ((j.after x).record y).turn < (j.record x).turn) :
    j.Swaps x y := by
  -- A turn of its own comes after every turn that opened a block so far.
  cases hyo : y.2.owner? with
  | some owner' =>
    rw [record_field hyo] at hlt
    cases hxo : x.2.owner? with
    | some owner =>
      rw [record_field hxo, after_field hxo] at hlt
      refine .of_fields hj hx hy hxo hyo ?_
      rintro rfl
      exact Nat.lt_irrefl _ hlt
    | none =>
      rw [record_onward hxo, after_onward hxo] at hlt
      refine .of_onward hj hx hy hxo hyo ?_
      by_contra hvisits
      simp only [reopened_of_ne hvisits, Nat.lt_irrefl] at hlt
  | none =>
    rw [record_onward hyo] at hlt
    cases hxo : x.2.owner? with
    | some owner =>
      rw [record_field hxo, after_field hxo] at hlt
      exact absurd (Nat.lt_of_succ_lt hlt) (Nat.not_lt_of_le (hj.opened_le owner))
    | none =>
      rw [record_onward hxo, after_onward hxo] at hlt
      exact absurd hlt (Nat.not_lt_of_le (Nat.le_succ _))

theorem Recorded.swap {x y : Record} {rest : List Record} {last : Journey} (hj : j.Regular)
    (h : Recorded j (x :: y :: rest) last) (hlt : y.turn < x.turn) :
    Recorded j (y :: x :: rest) last := by
  cases h with
  | cons hx h =>
    cases h with
    | cons hy hrest =>
      have hswaps : j.Swaps _ _ := .of_lt hj hx hy hlt
      rw [← hswaps.record_eq, ← hswaps.record_after]
      refine .cons hswaps.allows (.cons hswaps.allows_after ?_)
      rw [hswaps.after_eq]
      exact hrest

theorem Recorded.orderedInsert {x : Record} {records : List Record} {last : Journey}
    (hj : j.Regular) (h : Recorded j (x :: records) last) :
    Recorded j (records.orderedInsert (fun r r' => r.turn ≤ r'.turn) x) last := by
  induction records generalizing j with
  | nil => exact h
  | cons y rest ih =>
    rw [List.orderedInsert]
    -- The step goes past those of earlier turns, one at a time.
    split
    next => exact h
    next hlt =>
      cases h.swap hj (Nat.lt_of_not_le hlt) with
      | cons hy hrest => exact .cons hy (ih (hj.after hy) hrest)

theorem Recorded.insertionSort {records : List Record} {last : Journey} (hj : j.Regular)
    (h : Recorded j records last) :
    Recorded j (records.insertionSort fun r r' => r.turn ≤ r'.turn) last := by
  induction h with
  | nil => exact .nil
  | cons hstep _ ih => exact .orderedInsert hj (.cons hstep (ih (hj.after hstep)))

end Journey

theorem Session.spread_of_wrap {wrapping : Wrapping} {definition : MessageDef}
    {bytes bytes' : Bytes} {m : Message} (h : wrapping.wrap definition bytes = (.ok m, bytes')) :
    Session.Spread ⟨m, []⟩ := by
  obtain ⟨offset, blockLength, version, headerOffset, hle, hlimit, hmax, rfl⟩ :=
    Wrapping.wrap_eq_ok h
  refine ⟨⟨hle, hlimit⟩, ?_, ?_, ?_⟩
  · intro view hg
    cases hg
  · rintro (_ | g) e he
    · cases he
      exact ⟨Nat.le_refl _, fun view hg => by cases hg⟩
    · cases he
  · rintro (_ | g) (_ | g') hne e e' he he'
    · exact absurd rfl hne
    · cases he'
    · cases he
    · cases he

namespace Market.Snapshot

def wrapped : Message :=
  ⟨⟨List.replicate 80 0, 80, 28, 2, by decide⟩, definition, 0, none, 28⟩

def orderIdSpot : Spot :=
  .field (.element 0) (.name "orderID")

def orderIdStep : Step :=
  ⟨Unit, .field orderIdSpot (.setScalar (7 : UInt64))⟩

def securityIdStep : Step :=
  ⟨Unit, .field (.field .body (.name "securityID")) (.setScalar (5 : UInt64))⟩

def entrySteps : List Step := [
  ⟨GroupView, .group (.field .body (.name "noMDEntries"))⟩,
  ⟨Unit, .resetCount 0 1⟩,
  ⟨Nat, .next 0⟩]

def peekStep : Step :=
  ⟨Nat, .data (.field .body (.name "memo")) .length⟩

def memoStep : Step :=
  ⟨Unit, .data (.field .body (.name "memo")) (.setValue [104, 105])⟩

theorem orderly_steps :
    Session.Orderly (entrySteps ++ [peekStep, orderIdStep, securityIdStep, memoStep])
      ⟨wrapped, []⟩ := by
  refine ⟨?_, ?_, trivial, ?_, ?_, ?_, ?_, trivial⟩
  · rintro b ⟨⟩
    decide
  · rintro view ⟨⟩
    exact ⟨by decide, fun _ _ => rfl⟩
  · rintro b ⟨⟩
    decide
  · refine ⟨.element 0, ⟨31, 33, Entries.group.fields⟩, ⟨rfl, rfl, by decide, ?_⟩, ?_⟩
    · exact Session.lists_name (Session.listsPlace_element _ 0) "orderID"
    · exact fun _ _ => inferInstanceAs (LawfulElement UInt64)
  · refine ⟨.body, _, ⟨rfl, rfl, by decide, ?_⟩, ?_⟩
    · exact Session.lists_name (Session.listsPlace_body _) "securityID"
    · exact fun _ _ => inferInstanceAs (LawfulElement UInt64)
  · rintro b ⟨⟩
    decide

end Market.Snapshot

/-- Reads and writes of fixed fields may stand at any points of a run over groups and data. Without
them the other operations give the same and come to the same positions, no operation on groups and
data changes what a field of an open block reads, and each of them may be done as soon as its block
is open: every result and the last session stay the same. -/
theorem Wrapping.fixed_fields_any_time (wrapping : Wrapping) (definition : MessageDef)
    {bytes bytes' : Bytes} {m : Message} (hm : wrapping.wrap definition bytes = (.ok m, bytes'))
    {steps : List Step} (ho : Session.Orderly steps ⟨m, []⟩) :
    ∃ records last, Journey.run steps (.start ⟨m, []⟩) = (records, last) ∧
      List.Forall₂ Record.Of records (Session.runSteps steps ⟨m, []⟩).1 ∧
      last.session = (Session.runSteps steps ⟨m, []⟩).2 ∧
      (Journey.run (steps.filter Step.traverses) (.start ⟨m, []⟩)).1 =
        records.filter (fun r => r.step.traverses) ∧
      (∀ before between after, steps = before ++ between ++ after →
        (∀ step ∈ after, step.traverses = true) →
        ∀ (α : Type) (operation : FieldOperation α) spot owner e b, operation.readsOnly = true →
        (Session.runSteps before ⟨m, []⟩).2.Reaches spot owner e →
        (Session.runSteps before ⟨m, []⟩).2.bind spot = .ok b →
        (operation.run b last.session.window).1 =
          (operation.run b (Session.runSteps (before ++ between) ⟨m, []⟩).2.window).1) ∧
      ∃ early, early = records.insertionSort (fun r r' => r.turn ≤ r'.turn) ∧
        Session.Orderly (early.map Record.step) ⟨m, []⟩ ∧
        Journey.run (early.map Record.step) (.start ⟨m, []⟩) = (early, last) := by
  have hspread := Session.spread_of_wrap hm
  have hregular := Journey.Regular.start hspread
  refine ⟨_, _, Prod.mk.eta.symm, Journey.of_run steps, Journey.session_run steps,
    Journey.run_filter (.refl _ _) hspread ho, ?_, _, rfl, ?_⟩
  · rintro before between after rfl hafter α operation spot owner e b hr hreaches hb
    rw [Journey.session_run]
    exact ho.reads_stay hspread (fun step h => Option.isNone_iff_eq_none.mp (hafter step h)) hr
      hreaches hb
  -- Sorting by turns takes one swap after the other, and each of them keeps the records.
  · exact (Journey.Recorded.of_orderly ho).insertionSort hregular |>.run_eq

open Market.Snapshot in
theorem Wrapping.fixed_fields_any_time_snapshot :
    (encode 0 80).wrap definition (List.replicate 80 0) = (.ok wrapped, List.replicate 80 0) ∧
      ∃ records early last,
        Journey.run (entrySteps ++ [peekStep, orderIdStep, securityIdStep, memoStep])
          (.start ⟨wrapped, []⟩) = (records, last) ∧
        Journey.run (securityIdStep :: entrySteps ++ [orderIdStep, peekStep, memoStep])
          (.start ⟨wrapped, []⟩) = (early, last) ∧
        ∃ b, (Session.runSteps entrySteps ⟨wrapped, []⟩).2.bind orderIdSpot = .ok b ∧
          b.scalar UInt64 last.session.window =
            b.scalar UInt64
              (Session.runSteps (entrySteps ++ [peekStep, orderIdStep, securityIdStep])
                ⟨wrapped, []⟩).2.window := by
  have hwrap : (encode 0 80).wrap definition (List.replicate 80 0) =
      (.ok wrapped, List.replicate 80 0) := rfl
  obtain ⟨records, last, hrun, -, -, -, hreads, early, hearly, -, hsame⟩ :=
    fixed_fields_any_time (.encode 0 80) definition hwrap orderly_steps
  refine ⟨hwrap, records, early, last, hrun, ?_, ?_⟩
  · cases hrun
    have hsteps : early.map Record.step =
        securityIdStep :: entrySteps ++ [orderIdStep, peekStep, memoStep] := by
      rw [hearly]
      rfl
    rw [← hsteps]
    exact hsame
  · have hbind : (Session.runSteps entrySteps ⟨wrapped, []⟩).2.bind orderIdSpot =
        .ok (Market.Entries.Fields.orderId.bindAt 31 true 2) := rfl
    have hlisted := Session.lists_name (Session.listsPlace_element
      (Session.runSteps entrySteps ⟨wrapped, []⟩).2 0) "orderID"
    refine ⟨_, hbind, ?_⟩
    exact hreads entrySteps [peekStep, orderIdStep, securityIdStep] [memoStep] rfl
      (List.forall_mem_singleton.mpr rfl) UInt64 (.scalar UInt64) orderIdSpot (.element 0)
      ⟨31, 33, Market.Entries.group.fields⟩ _ rfl ⟨rfl, rfl, by decide, hlisted⟩ hbind

theorem Wrapping.presence_changed_by_data :
    LaidOut Note.definition.fields Note.definition.blockLength ∧
      (encode 0 3).use Note.definition
        [⟨Bool, .field (.field .body (.name "mark")) .present⟩,
          ⟨Unit, .data (.field .body (.name "memo")) (.setValue [7])⟩,
          ⟨Bool, .field (.field .body (.name "mark")) .present⟩] [255, 0, 0] =
        (.ok (0, [⟨Bool, .ok false, 0⟩, ⟨Unit, .ok (), 2⟩, ⟨Bool, .ok true, 2⟩]), [1, 7, 0]) :=
  ⟨by decide, rfl⟩

end SimpleBinary
