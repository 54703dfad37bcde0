import Mathlib.Order.Defs.Unbundled
import SimpleBinary.Proofs.Frame
import SimpleBinary.Proofs.Group
import SimpleBinary.Proofs.Session
import SimpleBinary.Proofs.Tables

namespace SimpleBinary

/-- Whatever the action starts from, it ends at a state that is related to it. -/
def Leads {σ α : Type} (r : σ → σ → Prop) (x : Action σ α) : Prop :=
  ∀ s, r s (x s).2

abbrev Same {σ τ : Type} (view : σ → τ) (s t : σ) : Prop :=
  view t = view s

instance {σ τ : Type} (view : σ → τ) : IsPreorder σ (Same view) where
  refl _ := rfl
  trans _ _ _ h h' := Eq.trans h' h

abbrev Keeps {σ τ α : Type} (view : σ → τ) (x : Action σ α) : Prop :=
  Leads (Same view) x

namespace Leads

variable {σ ρ α β : Type} {r : σ → σ → Prop}

theorem after {x : Action σ α} (h : Leads r x) {s t : σ} {result : Except Error α}
    (hx : x s = (result, t)) : r s t := by
  have hs := h s
  rwa [hx] at hs

theorem change {f : σ → σ} (h : ∀ s, r s (f s)) : Leads r (modify f : Action σ PUnit) :=
  h

theorem get_bind {f : σ → Action σ α} (hf : ∀ s, Leads r (f s)) : Leads r (get >>= f) :=
  fun s => hf s s

theorem discard {x : Action σ α} (h : Leads r x) : Leads r (Functor.discard x) := by
  intro s
  rw [Action.discard_apply]
  exact h s

theorem ite {c : Prop} [Decidable c] {x y : Action σ α} (h : Leads r x) (h' : Leads r y) :
    Leads r (if c then x else y) := by
  split
  · exact h
  · exact h'

theorem onPart {get : σ → ρ} {set : ρ → σ → σ} {q : ρ → ρ → Prop} {x : Action ρ α}
    (h : Leads q x) (hset : ∀ s t, q (get s) t → r s (set t s)) :
    Leads r (Action.onPart get set x) :=
  fun s => hset s _ (h (get s))

variable [IsPreorder σ r]

theorem pure (a : α) : Leads r (Pure.pure a) :=
  fun s => refl_of r s

theorem throw (e : Error) : Leads r (MonadExcept.throw e : Action σ α) :=
  fun s => refl_of r s

theorem lift (x : Except Error α) : Leads r (liftM x) :=
  fun s => refl_of r s

theorem query (look : σ → Except Error α) : Leads r (Action.query look) :=
  fun s => refl_of r s

theorem bind {x : Action σ α} {f : α → Action σ β} (h : Leads r x) (hf : ∀ a, Leads r (f a)) :
    Leads r (x >>= f) := by
  intro s
  cases hx : x s with
  | mk result t =>
    have hs := h.after hx
    cases result with
    | ok a =>
      rw [Action.bind_of_ok hx]
      exact trans_of r hs (hf a t)
    | error e =>
      rw [Action.bind_of_error hx]
      exact hs

theorem guard {c : Prop} [Decidable c] {e : Error} {f : β → Action σ α} {x : Action σ α}
    (h : Leads r x) : Leads r (if c then MonadExcept.throw e >>= f else x) := by
  rw [Action.throw_bind]
  exact .ite (.throw e) h

end Leads

namespace Keeps

variable {σ τ ρ υ α : Type} {view : σ → τ}

theorem onPart {get : σ → ρ} {set : ρ → σ → σ} {part : ρ → υ} {x : Action ρ α}
    (h : Keeps part x) (hset : ∀ s t, part t = part (get s) → view (set t s) = view s) :
    Keeps view (Action.onPart get set x) :=
  Leads.onPart h hset

theorem comp {x : Action σ α} (h : Keeps view x) (f : τ → υ) : Keeps (f ∘ view) x :=
  fun s => congrArg f (h s)

end Keeps

def Window.frame (w : Window) : Window :=
  { w with position := 0 }

theorem Window.version_of_frame {w w' : Window} (h : w'.frame = w.frame) :
    w'.version = w.version :=
  (congrArg version h :)

theorem Window.keeps_advance (size : Nat) : Keeps frame (advance size) := by
  intro w
  by_cases hle : w.position + size ≤ w.limit
  · rw [advance_of_le hle]
    rfl
  · rw [advance_of_lt (Nat.lt_of_not_le hle)]

theorem Window.keeps_seek (position : Nat) : Keeps frame (seek position) := by
  intro w
  by_cases hle : position ≤ w.limit
  · rw [seek_of_le hle]
    rfl
  · rw [seek_of_lt (Nat.lt_of_not_le hle)]

def Iteration.Windows (r : Window → Window → Prop) (it it' : Iteration) : Prop :=
  r it.window it'.window

instance {r : Window → Window → Prop} [IsPreorder Window r] :
    IsPreorder Iteration (Iteration.Windows r) where
  refl it := refl_of r it.window
  trans _ _ _ h h' := trans_of r h h'

section

variable {r : Window → Window → Prop} [IsPreorder Window r]
  (ha : ∀ size, Leads r (Window.advance size))

include ha

namespace DataView

variable {d : DataView}

theorem keeps_skip : Leads r d.skip := by
  unfold skip
  refine .ite (.pure _) ?_
  refine Leads.bind (.query _) fun count => ?_
  refine Leads.bind (.query _) fun place => ?_
  exact .bind (.discard (ha _)) fun _ => .pure _

theorem keeps_value : Leads r d.value := by
  unfold value
  refine .ite (.pure _) ?_
  refine Leads.bind (.query _) fun place => ?_
  refine Leads.bind (.discard (ha _)) fun _ => ?_
  exact .get_bind fun _ => .lift _

theorem keeps_valueString : Leads r d.valueString := by
  unfold valueString
  refine Leads.bind (keeps_value ha) fun bytes => ?_
  cases Utf8.decode? bytes with
  | some characters => exact .pure _
  | none => exact .throw _

end DataView

theorem GroupView.keeps_bind (f : Field) (g : GroupDef) (visible : Bool) :
    Leads r (GroupView.bind f g visible) := by
  unfold GroupView.bind
  apply Leads.get_bind
  intro w
  refine .ite (.pure _) ?_
  refine Leads.bind (.discard (.lift _)) fun _ => ?_
  refine Leads.bind (.lift _) fun blockLength => ?_
  refine Leads.bind (.lift _) fun count => ?_
  exact .bind (.discard (ha _)) fun _ => .pure _

theorem GroupView.keeps_ofBinding (b : Binding) : Leads r (GroupView.ofBinding b) := by
  unfold GroupView.ofBinding
  cases b.field.kind with
  | group g => exact keeps_bind ha _ g _
  | _ => exact .throw _

theorem Binding.keeps_entry (b : Binding) : Leads r b.entry := by
  unfold Binding.entry
  cases b.field.kind with
  | group g => exact .bind (GroupView.keeps_bind ha _ g _) fun _ => .pure _
  | _ => exact .pure _

namespace Iteration

omit ha [IsPreorder Window r] in
theorem keeps_window_onWindow {α : Type} {action : Action Window α} (h : Leads r action) :
    Leads (Windows r) (onWindow action) :=
  fun it => h it.window

theorem keeps_window_next : Leads (Windows r) next := by
  unfold next
  apply Leads.get_bind
  intro it
  apply Leads.guard
  refine Leads.bind (keeps_window_onWindow (ha _)) fun base => ?_
  exact .bind (.change fun it => refl_of r it.window) fun _ => .pure _

theorem keeps_window_repeatNext {visit : Nat → Action Window Unit}
    (hv : ∀ base, Leads r (visit base)) (n : Nat) :
    Leads (Windows r) (repeatNext visit n) := by
  induction n with
  | zero => exact .pure _
  | succ n ih =>
    refine Leads.bind (keeps_window_next ha) fun base => ?_
    exact .bind (keeps_window_onWindow (hv base)) fun _ => ih

theorem keeps_window_forRemaining {visit : Nat → Action Window Unit}
    (hv : ∀ base, Leads r (visit base)) :
    Leads (Windows r) (forRemaining visit) :=
  .get_bind fun _ => keeps_window_repeatNext ha hv _

end Iteration

theorem keeps_skipFields :
    TableInduction (fun f => Leads r f.skip) (fun fields => Leads r (skipFields fields)) := by
  apply TableInduction.of_fixed
  · intro f h h'
    rw [Field.skip_of_fixed h h']
    exact .pure _
  · intro f g hk ih
    rw [Field.skip_group hk]
    apply Leads.get_bind
    intro w
    refine Leads.bind (GroupView.keeps_bind ha f g _) fun group => ?_
    intro v
    exact Iteration.keeps_window_forRemaining ha (fun _ => ih) ⟨group, v⟩
  · intro f d hk
    rw [Field.skip_data hk]
    exact .get_bind fun _ => .discard (DataView.keeps_skip ha)
  · exact .pure _
  · intro f rest hf ih
    exact .bind hf fun _ => ih

end

namespace Iteration

def frame (it : Iteration) : Iteration :=
  ⟨{ it.group with index := 0, current := none }, it.window.frame⟩

theorem keeps_onWindow {α : Type} {action : Action Window α} (h : Keeps Window.frame action) :
    Keeps frame (onWindow action) := by
  unfold onWindow
  refine Keeps.onPart h fun it w hw => ?_
  rw [frame, hw]
  rfl

theorem keeps_next : Keeps frame next := by
  rintro ⟨g, w⟩
  by_cases hi : g.index < g.count
  · by_cases hle : w.position + g.blockLength ≤ w.limit
    · rw [next_of_le hi hle]
      rfl
    · rw [next_of_lt hi (Nat.lt_of_not_le hle)]
  · rw [next_of_done (Nat.le_of_not_lt hi)]

theorem keeps_repeatNext {visit : Nat → Action Window Unit}
    (hv : ∀ base, Keeps Window.frame (visit base)) (n : Nat) :
    Keeps frame (repeatNext visit n) := by
  induction n with
  | zero => exact .pure _
  | succ n ih =>
    apply Leads.bind keeps_next
    intro base
    exact .bind (keeps_onWindow (hv base)) fun _ => ih

theorem keeps_forRemaining {visit : Nat → Action Window Unit}
    (hv : ∀ base, Keeps Window.frame (visit base)) : Keeps frame (forRemaining visit) :=
  .get_bind fun _ => keeps_repeatNext hv _

theorem keeps_skip : Keeps frame skip :=
  .get_bind fun _ => keeps_forRemaining fun _ => (keeps_skipFields Window.keeps_advance).table _

end Iteration

theorem Walk.frame_elements {read : Nat → StateM Window (List Reading)}
    (hr : ∀ base w, (read base w).2.frame = w.frame) (n : Nat) (it : Iteration) :
    (elements read n it).2.frame = it.frame := by
  induction n generalizing it with
  | zero => rfl
  | succ n ih =>
    cases h : Iteration.next it with
    | mk result it' =>
      have hnext := Iteration.keeps_next.after h
      cases result with
      | error reason => rw [elements_of_error h, hnext]
      | ok base => rw [elements_of_ok h, ih, Iteration.frame, hr, ← hnext, Iteration.frame]

theorem frame_walk :
    TableInduction (fun f => ∀ base enclosed w, (f.walk base enclosed w).2.frame = w.frame)
      (fun fields => ∀ base enclosed w,
        (walkFields base enclosed fields w).2.frame = w.frame) where
  type f t hk := by
    intro base enclosed w
    rw [Field.walk_type hk]
  enum f e hk := by
    intro base enclosed w
    rw [Field.walk_enum hk]
  set f s hk := by
    intro base enclosed w
    rw [Field.walk_set hk]
  composite f c hk ih := by
    intro base enclosed w
    rw [Field.walk_composite hk, ih]
  group f g hk ih := by
    intro base enclosed w
    cases h : GroupView.bind f g (enclosed && f.inVersion w.version) w with
    | mk result v =>
      have hbind := (GroupView.keeps_bind Window.keeps_advance f g _).after h
      cases result with
      | error reason => rw [Field.walk_group_of_error hk h, hbind]
      | ok view =>
        have helements := Walk.frame_elements (fun base => ih base true) view.count ⟨view, v⟩
        rw [Field.walk_group_of_ok hk h, ← hbind]
        exact congrArg Iteration.window helements
  data f d hk := by
    intro base enclosed w
    rw [Field.walk_data hk, DataView.keeps_value Window.keeps_advance]
  nil := fun _ _ _ => rfl
  cons f rest hf ih := by
    intro base enclosed w
    rw [walkFields_cons, ih, hf]

namespace Message

def frame (m : Message) : Message :=
  { m with window := m.window.frame }

theorem frame_rewind (m : Message) : m.rewind.frame = m.frame := by
  have hwindow : m.rewind.window.frame = m.window.frame := Window.keeps_seek _ _
  rw [frame, hwindow]
  rfl

theorem rewind_frame {m : Message} (hle : m.offset + m.blockLength ≤ m.window.limit) :
    m.frame.rewind = m.rewind := by
  have hle' : m.frame.offset + m.frame.blockLength ≤ m.frame.window.limit := hle
  rw [rewind, rewind, Window.seek_of_le hle, Window.seek_of_le hle']
  rfl

theorem rewind_of_frame {m m' : Message} (h : m'.frame = m.frame)
    (hle : m.offset + m.blockLength ≤ m.window.limit) : m'.rewind = m.rewind := by
  have hle' : m'.frame.offset + m'.frame.blockLength ≤ m'.frame.window.limit := by
    rw [h]
    exact hle
  rw [← rewind_frame (m := m') hle', h, rewind_frame hle]

theorem keeps_skip : Keeps frame skip := by
  unfold skip
  refine Leads.bind (.change frame_rewind) fun _ => ?_
  apply Leads.get_bind
  intro m
  apply Leads.bind
  · unfold onWindow
    refine Keeps.onPart ((keeps_skipFields Window.keeps_advance).table m.definition.fields)
      fun m w hw => ?_
    rw [frame, hw]
    rfl
  · intro _
    exact .get_bind fun _ => .pure _

end Message

def FieldOperation.readsOnly {α : Type} : FieldOperation α → Bool
  | .reset | .setValue _ | @setScalar _ _ _ | @setScalar? _ _ _ | .setText _ | @setArray _ _ _
  | @setArrayElement _ _ _ _ | .setEnumRaw _ | .setEnumName _ | .setBits _ | .setBit _ _
  | .setChoice _ _ => false
  | _ => true

def DataOperation.readsOnly {α : Type} : DataOperation α → Bool
  | .setValue _ | @setValues _ _ _ => false
  | _ => true

def Operation.readsOnly {α : Type} : Operation α → Bool
  | .field _ operation => operation.readsOnly
  | .data _ operation => operation.readsOnly
  | .resetCount _ _ => false
  | _ => true

theorem FieldOperation.keeps {α : Type} {operation : FieldOperation α} (h : operation.readsOnly)
    (b : Binding) : Keeps Window.frame (operation.run b) := by
  cases operation with
  | reset | setValue | setScalar | setScalar? | setText | setArray | setArrayElement | setEnumRaw
  | setEnumName | setBits | setBit | setChoice => cases h
  | scalarNull | scalarLeast | scalarGreatest | textCapacity | arrayLength => exact .lift _
  | _ => exact .query _

theorem DataOperation.keeps {α : Type} {operation : DataOperation α} (h : operation.readsOnly)
    (d : DataView) : Keeps Window.frame (operation.run d) := by
  cases operation with
  | length => exact .query _
  | skip => exact DataView.keeps_skip Window.keeps_advance
  | value => exact DataView.keeps_value Window.keeps_advance
  | valueArray => exact .bind (DataView.keeps_value Window.keeps_advance) fun _ => .pure _
  | values =>
    exact .bind (.lift _) fun _ => .bind (DataView.keeps_value Window.keeps_advance) fun _ =>
      .pure _
  | valueString => exact DataView.keeps_valueString Window.keeps_advance
  | setValue | setValues => cases h

namespace Session

def frame (s : Session) : Message :=
  s.message.frame

theorem keeps_onWindow {α : Type} {action : Action Window α} (h : Keeps Window.frame action) :
    Keeps frame (onWindow action) := by
  unfold onWindow
  refine Keeps.onPart h fun s w hw => ?_
  rw [frame, Message.frame, withWindow, hw]
  rfl

theorem keeps_iterate {α : Type} {steps : Action Iteration α} (h : Keeps Iteration.frame steps)
    (group : Nat) : Keeps frame (iterate group steps) := by
  unfold iterate
  apply Leads.get_bind
  intro s
  refine Leads.bind (.lift _) fun view => ?_
  refine Keeps.onPart h fun s it hit => ?_
  have hwindow : it.window.frame = s.window.frame := congrArg Iteration.window hit
  rw [frame, Message.frame, withWindow, hwindow]
  rfl

end Session

theorem Operation.keeps {α : Type} {operation : Operation α} (h : operation.readsOnly) :
    Keeps Session.frame operation.run := by
  cases operation with
  | field spot operation =>
    apply Leads.get_bind
    intro s
    refine Leads.bind (.lift _) fun b => ?_
    exact Session.keeps_onWindow (operation.keeps h b)
  | data spot operation =>
    apply Leads.get_bind
    intro s
    refine Leads.bind (.lift _) fun b => ?_
    refine Leads.bind (.lift _) fun view => ?_
    exact Session.keeps_onWindow (operation.keeps h view)
  | entry spot =>
    apply Leads.get_bind
    intro s
    refine Leads.bind (.lift _) fun b => ?_
    exact Session.keeps_onWindow (b.keeps_entry Window.keeps_advance)
  | group spot =>
    apply Leads.get_bind
    intro s
    refine Leads.bind (.lift _) fun b => ?_
    refine Leads.bind (Session.keeps_onWindow (GroupView.keeps_ofBinding Window.keeps_advance b))
      fun view => ?_
    exact .bind (.change fun _ => rfl) fun _ => .pure _
  | state group => exact .get_bind fun _ => .lift _
  | next group => exact Session.keeps_iterate Iteration.keeps_next group
  | resetCount group count => cases h
  | skipGroup group => exact Session.keeps_iterate Iteration.keeps_skip group
  | rewind => exact .change fun s => s.message.frame_rewind
  | skip => exact .onPart Message.keeps_skip fun _ _ hm => hm

theorem Session.frame_runSteps (steps : List Step) (h : ∀ step ∈ steps, step.2.readsOnly)
    (s : Session) : (runSteps steps s).2.frame = s.frame := by
  induction steps generalizing s with
  | nil => rfl
  | cons step rest ih =>
    obtain ⟨α, operation⟩ := step
    have hfirst : operation.readsOnly := h _ List.mem_cons_self
    rw [runSteps_cons, ih (fun step hs => h step (List.mem_cons_of_mem _ hs)),
      Operation.keeps hfirst s]

theorem Wrapping.wrap_eq_ok {wrapping : Wrapping} {definition : MessageDef} {bytes bytes' : Bytes}
    {m : Message} (h : wrapping.wrap definition bytes = (.ok m, bytes')) :
    ∃ offset blockLength version headerOffset,
      offset + blockLength ≤ wrapping.limit ∧ wrapping.limit ≤ bytes'.length ∧ ∃ hmax,
        m = ⟨⟨bytes', wrapping.limit, offset + blockLength, version, hmax⟩, definition, offset,
          headerOffset, blockLength⟩ := by
  cases wrapping with
  | decode offset limit blockLength version =>
    obtain ⟨hwrap, rfl⟩ := Prod.mk.inj h
    obtain ⟨hle, hlimit, hmax, rfl⟩ := Message.wrapForDecode_eq_ok hwrap
    exact ⟨_, _, _, _, hle, hlimit, hmax, rfl⟩
  | encode offset limit =>
    obtain ⟨hwrap, rfl⟩ := Prod.mk.inj h
    obtain ⟨hle, hlimit, hmax, rfl⟩ := Message.wrapForDecode_eq_ok hwrap
    exact ⟨_, _, _, _, hle, hlimit, hmax, rfl⟩
  | readFrame offset limit =>
    obtain ⟨hwrap, rfl⟩ := Prod.mk.inj h
    obtain ⟨_, _, inner, hinner, rfl⟩ := Message.readFrame_eq_ok hwrap
    obtain ⟨hle, hlimit, hmax, rfl⟩ := Message.wrapForDecode_eq_ok hinner
    exact ⟨_, _, _, _, hle, hlimit, hmax, rfl⟩
  | writeFrame offset limit =>
    obtain ⟨inner, hinner, rfl⟩ := Message.writeFrame_eq_ok h
    obtain ⟨hle, hlimit, hmax, rfl⟩ := Message.wrapForDecode_eq_ok hinner
    exact ⟨_, _, _, _, hle, hlimit, hmax, rfl⟩

theorem Wrapping.block_le {wrapping : Wrapping} {definition : MessageDef} {bytes bytes' : Bytes}
    {m : Message} (h : wrapping.wrap definition bytes = (.ok m, bytes')) :
    m.offset + m.blockLength ≤ m.window.limit := by
  obtain ⟨offset, blockLength, version, headerOffset, hle, -, -, rfl⟩ := wrap_eq_ok h
  exact hle

end SimpleBinary
