import SimpleBinary.BitSet
import SimpleBinary.Market.Schema
import SimpleBinary.Proofs.Forward
import SimpleBinary.Proofs.Reach

namespace SimpleBinary

/-- Where the action fails, what is seen of the state is as before. -/
def Atomic {σ τ α : Type} (view : σ → τ) (x : Action σ α) (s : σ) : Prop :=
  ∀ e, (x s).1 = .error e → view (x s).2 = view s

namespace Atomic

variable {σ τ ρ υ α β : Type} {view : σ → τ} {s : σ}

theorem after {x : Action σ α} {e : Error} {t : σ} (h : Atomic view x s)
    (hx : x s = (.error e, t)) : view t = view s := by
  have hs := h e (by rw [hx])
  rwa [hx] at hs

theorem of_keeps {x : Action σ α} (h : Keeps view x) : Atomic view x s :=
  fun _ _ => h s

theorem of_ok {x : Action σ α} {a : α} {t : σ} (h : x s = (.ok a, t)) : Atomic view x s := by
  intro e he
  rw [h] at he
  cases he

theorem bind {x : Action σ α} {f : α → Action σ β} (h : Keeps view x)
    (hf : ∀ a t, x s = (.ok a, t) → Atomic view (f a) t) : Atomic view (x >>= f) s := by
  cases hx : x s with
  | mk result t =>
    have hs := h.after hx
    intro e he
    cases result with
    | ok a =>
      rw [Action.bind_of_ok hx] at he ⊢
      rw [hf a t hx e he, hs]
    | error e' =>
      rw [Action.bind_of_error hx, hs]

theorem bind_ok {x : Action σ α} {f : α → Action σ β} (h : Atomic view x s)
    (hf : ∀ a t, x s = (.ok a, t) → ∃ b u, f a t = (.ok b, u)) : Atomic view (x >>= f) s := by
  cases hx : x s with
  | mk result t =>
    cases result with
    | ok a =>
      obtain ⟨b, u, hb⟩ := hf a t hx
      exact .of_ok ((Action.bind_of_ok hx).trans hb)
    | error e' =>
      intro e _
      rw [Action.bind_of_error hx, h.after hx]

theorem discard {x : Action σ α} (h : Atomic view x s) : Atomic view (Functor.discard x) s := by
  intro e he
  rw [Action.discard_apply] at he ⊢
  apply h
  cases hx : (x s).1 with
  | ok a =>
    rw [hx] at he
    cases he
  | error e' =>
    rw [hx] at he
    cases he
    rfl

theorem of_discard {x : Action σ α} (h : Atomic view (Functor.discard x) s) :
    Atomic view x s := by
  intro e he
  have hs := h e (by rw [Action.discard_apply, he]; rfl)
  rwa [Action.discard_apply] at hs

theorem comp {x : Action σ α} (h : Atomic view x s) (f : τ → υ) : Atomic (f ∘ view) x s :=
  fun e he => congrArg f (h e he)

theorem get_bind {f : σ → Action σ α} (h : Atomic view (f s) s) : Atomic view (get >>= f) s :=
  h

theorem lift_bind {x : Except Error α} {f : α → Action σ β}
    (hf : ∀ a, x = .ok a → Atomic view (f a) s) : Atomic view (liftM x >>= f) s := by
  apply bind (.lift x)
  intro a t hx
  obtain ⟨hok, rfl⟩ := Prod.mk.inj hx
  exact hf a hok

theorem ite {c : Prop} [Decidable c] {x y : Action σ α} (h : c → Atomic view x s)
    (h' : ¬ c → Atomic view y s) : Atomic view (if c then x else y) s := by
  by_cases hc : c
  · rw [if_pos hc]
    exact h hc
  · rw [if_neg hc]
    exact h' hc

theorem guard {c : Prop} [Decidable c] {e : Error} {f : β → Action σ α} {x : Action σ α}
    (h : ¬ c → Atomic view x s) :
    Atomic view (if c then MonadExcept.throw e >>= f else x) s := by
  rw [Action.throw_bind]
  exact .ite (fun _ => .of_keeps (.throw e)) h

theorem onPart {get : σ → ρ} {set : ρ → σ → σ} {part : ρ → υ} {x : Action ρ α}
    (h : Atomic part x (get s)) (hset : ∀ t, part t = part (get s) → view (set t s) = view s) :
    Atomic view (Action.onPart get set x) s :=
  fun e he => hset _ (h e he)

end Atomic

section

variable {f : Binding} {w : Window}

theorem Window.atomic_write (start : Nat) (part : Bytes) :
    Atomic id (Window.write start part) w := by
  by_cases hle : start + part.length ≤ w.limit
  · exact .of_ok (write_of_le hle)
  · intro e _
    rw [write_of_lt (Nat.lt_of_not_le hle)]

theorem Window.atomic_advance (size : Nat) : Atomic id (Window.advance size) w := by
  by_cases hle : w.position + size ≤ w.limit
  · exact .of_ok (advance_of_le hle)
  · intro e _
    rw [advance_of_lt (Nat.lt_of_not_le hle)]

theorem Window.write_write_of_le {start start' : Nat} {part part' : Bytes}
    (h : start + part.length ≤ w.limit) (h' : start' + part'.length ≤ w.limit) :
    (do write start part; write start' part' : Action Window Unit) w =
      (.ok ⟨⟩, (w.written start part).written start' part') := by
  rw [Action.bind_of_ok (write_of_le h), write_of_le (by rw [written_limit]; exact h')]

theorem Binding.atomic_settle (edit : Except Error (Option Edit)) :
    Atomic id (f.settle edit) w := by
  rcases edit with e | _ | edit
  · exact .of_keeps (.throw e)
  · exact .of_keeps (.pure _)
  · exact Window.atomic_write _ _

theorem FieldOperation.atomic {α : Type} (operation : FieldOperation α) :
    Atomic id (operation.run f) w := by
  cases hreads : operation.readsOnly with
  | true => exact fun _ _ => run_of_readsOnly hreads
  | false =>
    apply Atomic.of_discard
    intro e he
    rw [run_edit hreads] at he ⊢
    exact Binding.atomic_settle _ e he

end

class LawfulElement (α : Type) [Element α] : Prop where
  length_encode (value : α) : (Element.encode value).length = Element.size α

namespace LawfulElement

instance : LawfulElement UInt8 := ⟨fun _ => LittleEndian.length_encode _ _⟩

instance : LawfulElement UInt16 := ⟨fun _ => LittleEndian.length_encode _ _⟩

instance : LawfulElement UInt32 := ⟨fun _ => LittleEndian.length_encode _ _⟩

instance : LawfulElement UInt64 := ⟨fun _ => LittleEndian.length_encode _ _⟩

instance : LawfulElement Int8 := ⟨fun _ => LittleEndian.length_encode _ _⟩

instance : LawfulElement Int16 := ⟨fun _ => LittleEndian.length_encode _ _⟩

instance : LawfulElement Int32 := ⟨fun _ => LittleEndian.length_encode _ _⟩

instance : LawfulElement Int64 := ⟨fun _ => LittleEndian.length_encode _ _⟩

instance : LawfulElement Binary32 := ⟨fun _ => LittleEndian.length_encode _ _⟩

instance : LawfulElement Binary64 := ⟨fun _ => LittleEndian.length_encode _ _⟩

end LawfulElement

namespace DataView

variable {d : DataView} {w : Window}

theorem writeLength_eq_ok {count size start : Nat} {v : Window}
    (h : d.writeLength count size w = (.ok start, v)) :
    start = w.position + d.headerLength ∧ start + size ≤ w.limit ∧ v.limit = w.limit ∧
      v.position = w.position := by
  simp only [writeLength, Action.bind_apply, Action.get_apply, Action.throw_bind] at h
  split at h
  · cases h
  split at h
  · cases h
  obtain ⟨_, w₁, hcheck, h⟩ := Action.bind_eq_ok h
  obtain ⟨_, w₂, hwrite, h⟩ := Action.bind_eq_ok h
  cases h
  by_cases hle : w.position + (d.headerLength + size) ≤ w.limit
  · have hstart : wordOf (w.position + d.headerLength) = _ :=
      Window.wordOf_of_le (w := w) (by omega)
    rw [Action.discard_apply, Action.lift_apply, Window.check_of_le hle] at hcheck
    cases hcheck
    obtain ⟨-, rfl⟩ := Window.write_eq_ok hwrite
    exact ⟨hstart, by omega, rfl, rfl⟩
  · rw [Action.discard_apply, Action.lift_apply, Window.check_of_lt (Nat.lt_of_not_le hle)]
      at hcheck
    cases hcheck

theorem atomic_writeLength (count size : Nat) :
    Atomic id (d.writeLength count size) w := by
  unfold writeLength
  apply Atomic.get_bind
  refine .guard fun _ => .guard fun _ => ?_
  apply Atomic.bind (.discard (.lift _))
  intro _ v _
  exact .bind_ok (Window.atomic_write _ _) fun _ t _ => ⟨_, t, rfl⟩

theorem atomic_setValue (bytes : Bytes) : Atomic id (d.setValue bytes) w := by
  unfold setValue
  refine .guard fun _ => ?_
  apply Atomic.bind_ok (atomic_writeLength _ _)
  intro start v hlength
  obtain ⟨rfl, hle, hlimit, hposition⟩ := writeLength_eq_ok hlength
  have hwrite : Window.write (w.position + d.headerLength) bytes v = _ :=
    Window.write_of_le (by omega)
  have hword : wordOf (d.headerLength + bytes.length) = _ :=
    Window.wordOf_of_le (w := w) (by omega)
  have hadvance : Window.advance (d.headerLength + bytes.length)
      (v.written (w.position + d.headerLength) bytes) = _ :=
    Window.advance_of_le (by rw [Window.written_position, Window.written_limit]; omega)
  exact ⟨⟨⟩, _, by rw [Action.bind_of_ok hwrite, Action.discard_apply, hword, hadvance]; rfl⟩

theorem writeElements_of_le {α : Type} [Element α] [LawfulElement α] (values : List α) :
    ∀ (start : Nat) (w : Window), start + values.length * Element.size α ≤ w.limit →
      ∃ v, writeElements start values w = (.ok ⟨⟩, v) ∧ v.limit = w.limit ∧
        v.position = w.position := by
  induction values with
  | nil => exact fun start w _ => ⟨w, rfl, rfl, rfl⟩
  | cons value rest ih =>
    intro start w hle
    rw [List.length_cons, Nat.succ_mul] at hle
    have hwrite : Window.writeElement start value w = _ :=
      Window.write_of_le (by rw [LawfulElement.length_encode]; omega)
    obtain ⟨v, hrest, hlimit, hposition⟩ := ih (start + Element.size α)
      (w.written start (Element.encode value)) (by rw [Window.written_limit]; omega)
    rw [← Window.wordOf_of_le (w := w) (n := start + Element.size α) (by omega)] at hrest
    exact ⟨v, (Action.bind_of_ok hwrite).trans hrest, hlimit, hposition⟩

theorem atomic_setValues {α : Type} [Element α] [LawfulElement α] (values : List α) :
    Atomic id (d.setValues values) w := by
  unfold setValues
  apply Atomic.lift_bind
  intro _ _
  apply Atomic.bind_ok (atomic_writeLength _ _)
  intro start v hlength
  obtain ⟨rfl, hle, hlimit, hposition⟩ := writeLength_eq_ok hlength
  obtain ⟨u, hwrite, hlimit', hposition'⟩ :=
    writeElements_of_le values (w.position + d.headerLength) v (by omega)
  have hword : wordOf (d.headerLength + values.length * Element.size α) = _ :=
    Window.wordOf_of_le (w := w) (by omega)
  have hadvance : Window.advance (d.headerLength + values.length * Element.size α) u = _ :=
    Window.advance_of_le (by omega)
  exact ⟨⟨⟩, _, by rw [Action.bind_of_ok hwrite, Action.discard_apply, hword, hadvance]; rfl⟩

end DataView

def DataOperation.Lawful {α : Type} : DataOperation α → Prop
  | @setValues β _ _ => LawfulElement β
  | _ => True

theorem DataOperation.atomic {α : Type} {operation : DataOperation α} (hl : operation.Lawful)
    {d : DataView} {w : Window} : Atomic Window.bytes (operation.run d) w := by
  by_cases hreads : operation.readsOnly
  · exact .of_keeps ((operation.keeps hreads d).comp Window.bytes)
  · cases operation with
    | setValue bytes => exact (DataView.atomic_setValue bytes).comp Window.bytes
    | setValues elements =>
      have : LawfulElement _ := hl
      exact (DataView.atomic_setValues elements).comp Window.bytes
    | _ => exact absurd rfl hreads

def GroupView.HeaderWithin (g : GroupView) (limit : Nat) : Prop :=
  g.visible = true →
    wordOf (g.headerOffset + g.definition.blockLengthMember.offset) +
        g.definition.blockLengthMember.primitive.size ≤ limit ∧
      wordOf (g.headerOffset + g.definition.numInGroupMember.offset) +
        g.definition.numInGroupMember.primitive.size ≤ limit

theorem GroupView.headerWithin_of_bind {f : Field} {g : GroupDef} {visible : Bool} {w w' : Window}
    {view : GroupView} (h : GroupView.bind f g visible w = (.ok view, w')) :
    view.HeaderWithin w.limit := by
  rcases bind_cases h with ⟨-, rfl, -⟩ | ⟨-, blockLength, count, hlength, hcount, rfl, -, -⟩
  · rintro ⟨⟩
  · intro _
    exact ⟨Window.le_of_readScalar hlength, Window.le_of_readScalar hcount⟩

theorem GroupView.headerWithin_of_ofBinding {f : Binding} {w w' : Window} {view : GroupView}
    (h : GroupView.ofBinding f w = (.ok view, w')) : view.HeaderWithin w.limit := by
  obtain ⟨g, -, hbind⟩ := ofBinding_eq_ok h
  exact headerWithin_of_bind hbind

theorem GroupView.HeaderWithin.of_header_eq {g g' : GroupView} {limit : Nat}
    (h : g.HeaderWithin limit) (he : g'.header = g.header) : g'.HeaderWithin limit := by
  obtain ⟨hvisible, hplace⟩ := Prod.mk.inj he
  obtain ⟨hoffset, hdefinition⟩ := Prod.mk.inj hplace
  unfold HeaderWithin
  rw [hvisible, hoffset, hdefinition]
  exact h

namespace Iteration

theorem atomic_resetCount {it : Iteration} (h : it.group.HeaderWithin it.window.limit)
    (count : Nat) : Atomic (fun it => it.window.bytes) (resetCount count) it := by
  unfold resetCount
  apply Atomic.get_bind
  apply Atomic.guard
  intro hv
  refine .guard fun _ => .guard fun _ => ?_
  obtain ⟨hlength, hcount⟩ := h (by simpa using hv)
  apply Atomic.bind_ok
  · refine .onPart (υ := Bytes) (.of_ok (Window.write_write_of_le ?_ ?_)) fun _ hb => hb
    · rw [Primitive.length_encode]
      exact hlength
    · rw [Primitive.length_encode]
      exact hcount
  · exact fun _ t _ => ⟨⟨⟩, _, rfl⟩

end Iteration

structure Session.Within (limit : Nat) (s : Session) : Prop where
  placed : s.message.Placed
  limit_eq : s.window.limit = limit
  headers : ∀ g ∈ s.groups, g.HeaderWithin limit

namespace Session

variable {limit : Nat} {s : Session}

theorem atomic_onWindow {α : Type} {action : Action Window α}
    (h : Atomic Window.bytes action s.window) :
    Atomic (fun s => s.window.bytes) (onWindow action) s :=
  .onPart h fun _ hb => hb

theorem atomic_iterate (h : s.Within limit) (group : Nat) {α : Type} {steps : Action Iteration α}
    (hs : ∀ it : Iteration, it.group.HeaderWithin it.window.limit →
      Atomic (fun it => it.window.bytes) steps it) :
    Atomic (fun s => s.window.bytes) (iterate group steps) s := by
  unfold iterate
  apply Atomic.get_bind
  apply Atomic.lift_bind
  intro view hview
  refine .onPart (hs ⟨view, s.window⟩ ?_) fun _ hb => hb
  rw [h.limit_eq]
  exact h.headers view (mem_of_groupAt hview)

end Session

def Operation.Lawful {α : Type} : Operation α → Prop
  | .data _ operation => operation.Lawful
  | _ => True

theorem Operation.atomic {α : Type} {operation : Operation α} (hl : operation.Lawful)
    {limit : Nat} {s : Session} (h : s.Within limit) :
    Atomic (fun s => s.window.bytes) operation.run s := by
  by_cases hreads : operation.readsOnly
  · exact .of_keeps ((Operation.keeps hreads).comp fun m => m.window.bytes)
  · cases operation with
    | field spot operation =>
      apply Atomic.get_bind
      exact .lift_bind fun b _ => Session.atomic_onWindow (operation.atomic.comp Window.bytes)
    | data spot operation =>
      apply Atomic.get_bind
      apply Atomic.lift_bind
      intro b _
      exact .lift_bind fun view _ => Session.atomic_onWindow (operation.atomic hl)
    | resetCount group count =>
      exact Session.atomic_iterate h group fun it hit => Iteration.atomic_resetCount hit count
    | _ => exact absurd rfl hreads

theorem Operation.within {α : Type} (operation : Operation α) {limit : Nat} {s : Session}
    (h : s.Within limit) : (operation.run s).2.Within limit := by
  obtain ⟨hcontinues, hplaced⟩ := Session.course_of_operation operation h.placed
  refine ⟨hplaced, hcontinues.limit_eq.trans h.limit_eq, ?_⟩
  intro g hg
  rcases operation.groups_run s g hg with ⟨g', hold, hheader⟩ | ⟨spot, b, w, -, -, hbound⟩
  · exact (h.headers g' hold).of_header_eq hheader
  · rw [← h.limit_eq]
    exact GroupView.headerWithin_of_ofBinding hbound

theorem Session.within_runSteps {limit : Nat} (steps : List Step) :
    ∀ s : Session, s.Within limit → (runSteps steps s).2.Within limit := by
  induction steps with
  | nil => exact fun s h => h
  | cons step rest ih =>
    obtain ⟨α, operation⟩ := step
    intro s h
    exact ih _ (operation.within h)

theorem Session.within_of_wrap {wrapping : Wrapping} {definition : MessageDef}
    {bytes bytes' : Bytes} {m : Message} (h : wrapping.wrap definition bytes = (.ok m, bytes')) :
    Session.Within wrapping.limit ⟨m, []⟩ := by
  obtain ⟨hplaced, -, hlimit, -⟩ := Wrapping.placed_of_wrap h
  exact ⟨hplaced, hlimit, by simp⟩

theorem MessageHeader.atomic_write (h : MessageHeader) (bytes : Bytes) :
    Atomic id h.write bytes := by
  unfold write
  apply Atomic.get_bind
  apply Atomic.guard
  intro _
  exact .of_ok rfl

theorem BitSet.atomic_write (s : BitSet) (bytes : Bytes) : Atomic id s.write bytes := by
  unfold write
  apply Atomic.get_bind
  apply Atomic.guard
  intro _
  exact .of_ok rfl

theorem Message.atomic_writeFrame {bytes : Bytes} (hbytes : bytes.length ≤ Window.maxPosition)
    (offset limit : Nat) (definition : MessageDef) :
    Atomic id (writeFrame offset limit definition) bytes := by
  by_cases hlimit : limit ≤ bytes.length
  · by_cases hfits : offset + (MessageHeader.size + definition.blockLength) ≤ limit
    · exact .of_ok (writeFrame_of_le hlimit hfits (by omega))
    · apply Atomic.get_bind
      apply Atomic.lift_bind
      intro window hopen
      obtain ⟨-, -, _, rfl⟩ := Window.open?_eq_ok.mp hopen
      apply Atomic.bind (.discard (.lift _))
      intro _ bytes' hcheck
      rw [Action.discard_apply, Action.lift_apply, Window.check_of_lt (Nat.lt_of_not_le hfits)]
        at hcheck
      cases hcheck
  · apply Atomic.get_bind
    apply Atomic.lift_bind
    intro window hopen
    exact absurd (Window.open?_eq_ok.mp hopen).1 hlimit

theorem Wrapping.atomic_wrap {bytes : Bytes} (hbytes : bytes.length ≤ Window.maxPosition)
    (wrapping : Wrapping) (definition : MessageDef) :
    Atomic id (wrapping.wrap definition) bytes := by
  cases wrapping with
  | writeFrame offset limit => exact Message.atomic_writeFrame hbytes offset limit definition
  | _ => exact .of_keeps (.query _)

/-- Whatever is written and wherever it fails, the bytes are as before the operation that failed. -/
theorem failed_write_keeps_bytes (bytes : Bytes) (hbytes : bytes.length ≤ Window.maxPosition) :
    (∀ (header : MessageHeader) e bytes',
      header.write bytes = (.error e, bytes') → bytes' = bytes) ∧
    (∀ (set : BitSet) e bytes', set.write bytes = (.error e, bytes') → bytes' = bytes) ∧
    ∀ (wrapping : Wrapping) (definition : MessageDef),
      (∀ e bytes', wrapping.wrap definition bytes = (.error e, bytes') → bytes' = bytes) ∧
      ∀ m bytes', wrapping.wrap definition bytes = (.ok m, bytes') →
        ∀ steps s, s = (Session.runSteps steps ⟨m, []⟩).2 →
          ∀ {α : Type} (operation : Operation α), operation.Lawful →
            ∀ e t, operation.run s = (.error e, t) → t.window.bytes = s.window.bytes := by
  have hkept {α : Type} {x : Action Bytes α} (h : Atomic id x bytes) (e : Error) (bytes' : Bytes)
      (hx : x bytes = (.error e, bytes')) : bytes' = bytes := by
    have hsame := h e (by rw [hx])
    rw [hx] at hsame
    exact hsame
  refine ⟨?_, ?_, ?_⟩
  · exact fun header => hkept (header.atomic_write bytes)
  · exact fun set => hkept (set.atomic_write bytes)
  · intro wrapping definition
    refine ⟨hkept (wrapping.atomic_wrap hbytes definition), ?_⟩
    rintro m bytes' hwrap steps s rfl α operation hlawful e t hrun
    have hwithin := Session.within_runSteps steps _ (Session.within_of_wrap hwrap)
    have hatomic := operation.atomic hlawful hwithin e
    rw [hrun] at hatomic
    exact hatomic rfl

theorem failed_write_keeps_bytes_snapshot :
    (List.replicate 60 0 : Bytes).length ≤ Window.maxPosition ∧
    ∃ m, (Wrapping.encode 0 60).wrap Market.Snapshot.definition (List.replicate 60 0) =
        (.ok m, List.replicate 60 0) ∧
      ∃ s t, s = (Session.runSteps [⟨GroupView, .group (.field .body (.name "noMDEntries"))⟩,
          ⟨Unit, .resetCount 0 1⟩] ⟨m, []⟩).2 ∧
        (Operation.resetCount 0 300).run s = (.error (.countOverflow "noMDEntries" 300), t) ∧
        t.window.bytes = s.window.bytes := by
  have hbytes : (List.replicate 60 0 : Bytes).length ≤ Window.maxPosition := by decide
  obtain ⟨-, -, hmessage⟩ := failed_write_keeps_bytes (List.replicate 60 0) hbytes
  obtain ⟨-, hoperation⟩ := hmessage (.encode 0 60) Market.Snapshot.definition
  refine ⟨hbytes, _, rfl, _, _, rfl, rfl, ?_⟩
  exact hoperation _ _ rfl _ _ rfl (.resetCount 0 300) trivial _ _ rfl

end SimpleBinary
