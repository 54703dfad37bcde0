import SimpleBinary.Proofs.Access
import SimpleBinary.Proofs.Words

/-!
Computations with words and with numbers that do the same: no fault comes up, the only failures are
for want of bytes, and the position moves forward inside the limit. The relation is kept by each way
of building a computation.
-/

namespace SimpleBinary

def Error.IsShort : Error → Prop
  | bufferTooShort _ _ => True
  | _ => False

def OkOrShort {α : Type} (x : Except Error α) : Prop :=
  ∀ e, x = .error e → e.IsShort

theorem okOrShort_ok {α : Type} (a : α) : OkOrShort (.ok a) := by
  intro e h
  cases h

theorem okOrShort_error {α : Type} {e : Error} (h : e.IsShort) :
    OkOrShort (.error e : Except Error α) := by
  intro e' h'
  cases h'
  exact h

namespace Window

def Forward (w w' : Window) : Prop :=
  ∃ size, w.position + size ≤ w.limit ∧ w' = w.moved size

theorem Forward.rfl {w : Window} (h : w.Sound) : w.Forward w :=
  ⟨0, h.position_le, Eq.symm (moved_zero w)⟩

theorem Forward.trans {w w₁ w₂ : Window} (h : w.Forward w₁) (h' : w₁.Forward w₂) :
    w.Forward w₂ := by
  obtain ⟨size, _, rfl⟩ := h
  obtain ⟨size', hle, rfl⟩ := h'
  refine ⟨size + size', ?_, moved_moved w size size'⟩
  simp only [moved_position, moved_limit] at hle
  omega

theorem Forward.sound {w w' : Window} (h : w.Forward w') (hs : w.Sound) : w'.Sound := by
  obtain ⟨size, hle, rfl⟩ := h
  exact hs.moved hle

theorem Forward.limit_eq {w w' : Window} (h : w.Forward w') : w'.limit = w.limit := by
  obtain ⟨size, _, rfl⟩ := h
  rfl

theorem Forward.position_le {w w' : Window} (h : w.Forward w') : w.position ≤ w'.position := by
  obtain ⟨size, _, rfl⟩ := h
  exact Nat.le_add_right _ _

end Window

/-- From the window on, the computation with words does what the one with numbers does, with a
result that is `safe`. -/
structure Agrees {α : Type} (safe : α → Prop) (x : StateT Window (Except Fault) α)
    (y : StateM Window α) (w : Window) : Prop where
  same : x w = .ok (y w)
  safe : safe (y w).1
  forward : w.Forward (y w).2

theorem Word.state_bind_of_ok {σ α β : Type} {x : StateT σ (Except Fault) α}
    {f : α → StateT σ (Except Fault) β} {s : σ} {p : α × σ} (h : x s = .ok p) :
    (x >>= f) s = f p.1 p.2 := by
  simp only [Bind.bind, StateT.bind, h]
  rfl

namespace Agrees

variable {α β : Type} {w : Window}

theorem pure {safe : α → Prop} {a : α} (hw : w.Sound) (h : safe a) :
    Agrees safe (Pure.pure a) (Pure.pure a) w :=
  ⟨rfl, h, .rfl hw⟩

theorem bind {safe : α → Prop} {safe' : β → Prop} {x : StateT Window (Except Fault) α}
    {y : StateM Window α} {f : α → StateT Window (Except Fault) β} {g : α → StateM Window β}
    (h : Agrees safe x y w)
    (hf : ∀ a w', y w = (a, w') → safe a → w.Forward w' → Agrees safe' (f a) (g a) w') :
    Agrees safe' (x >>= f) (y >>= g) w := by
  have hrest := hf (y w).1 (y w).2 rfl h.safe h.forward
  exact ⟨(Word.state_bind_of_ok h.same).trans hrest.same, hrest.safe, h.forward.trans hrest.forward⟩

theorem get_bind {safe : α → Prop} {f : Window → StateT Window (Except Fault) α}
    {g : Window → StateM Window α} (h : Agrees safe (f w) (g w) w) :
    Agrees safe (get >>= f) (get >>= g) w :=
  ⟨h.same, h.safe, h.forward⟩

end Agrees

theorem Word.bind_of_ok {σ α β : Type} {x : WordAction σ α} {f : α → WordAction σ β} {s t : σ}
    {a : α} (h : x s = .ok (.ok a, t)) : (x >>= f) s = f a t := by
  simp only [Bind.bind, ExceptT.bind, ExceptT.mk, StateT.bind, h]
  rfl

theorem Word.bind_of_error {σ α β : Type} {x : WordAction σ α} {f : α → WordAction σ β} {s t : σ}
    {e : Error} (h : x s = .ok (.error e, t)) : (x >>= f) s = .ok (.error e, t) := by
  simp only [Bind.bind, ExceptT.bind, ExceptT.mk, StateT.bind, h]
  rfl

@[simp] theorem Word.lift_ok_bind {σ α β : Type} (a : α) (f : α → WordAction σ β) :
    ((liftM (.ok a : Except Error α) : WordAction σ α) >>= f) = f a := rfl

structure Reads {α : Type} (x : WordAction Window α) (y : Except Error α) (w : Window) : Prop where
  same : x w = .ok (y, w)
  short : OkOrShort y

abbrev AgreesAction {α : Type} (x : WordAction Window α) (y : Action Window α) (w : Window) :
    Prop :=
  Agrees OkOrShort x y w

namespace Reads

variable {α β : Type} {w : Window}

theorem ok (a : α) : Reads (pure a) (.ok a) w :=
  ⟨rfl, okOrShort_ok a⟩

theorem lift {x : Except Error α} (h : OkOrShort x) : Reads (liftM x) x w :=
  ⟨rfl, h⟩

theorem bind {x : WordAction Window α} {y : Except Error α} {f : α → WordAction Window β}
    {g : α → Except Error β} (h : Reads x y w)
    (hf : ∀ a, y = .ok a → Reads (f a) (g a) w) : Reads (x >>= f) (y >>= g) w := by
  obtain ⟨hx, hs⟩ := h
  cases y with
  | ok a =>
    have hrest := hf a rfl
    exact ⟨(Word.bind_of_ok hx).trans hrest.same, hrest.short⟩
  | error e => exact ⟨Word.bind_of_error hx, okOrShort_error (hs e rfl)⟩

theorem get_bind {f : Window → WordAction Window α} {y : Except Error α} (h : Reads (f w) y w) :
    Reads (get >>= f) y w :=
  ⟨h.same, h.short⟩

theorem fault_bind {x : Except Fault α} {a : α} {f : α → WordAction Window β} {y : Except Error β}
    (hx : x = .ok a) (h : Reads (f a) y w) :
    Reads ((liftM x : WordAction Window α) >>= f) y w := by
  subst hx
  exact h

theorem throw_bind {e : Error} (h : e.IsShort) (f : α → WordAction Window β)
    (g : α → Except Error β) : Reads (throw e >>= f) (throw e >>= g) w :=
  ⟨rfl, okOrShort_error h⟩

theorem discard {x : WordAction Window α} {y : Except Error α} (h : Reads x y w) :
    Reads (Functor.discard x) (Functor.discard y) w := by
  obtain ⟨hx, hs⟩ := h
  cases y with
  | ok a =>
    refine ⟨?_, okOrShort_ok _⟩
    exact Word.bind_of_ok (f := fun _ => pure PUnit.unit) hx
  | error e =>
    refine ⟨?_, okOrShort_error (hs e rfl)⟩
    exact Word.bind_of_error (f := fun _ => pure PUnit.unit) hx

theorem ite {c : Prop} [Decidable c] {x x' : WordAction Window α} {y y' : Except Error α}
    (h : c → Reads x y w) (h' : ¬ c → Reads x' y' w) :
    Reads (if c then x else x') (if c then y else y') w := by
  by_cases hc : c
  · rw [if_pos hc, if_pos hc]
    exact h hc
  · rw [if_neg hc, if_neg hc]
    exact h' hc

end Reads

namespace AgreesAction

variable {α β : Type} {w : Window}

theorem ok (hw : w.Sound) (a : α) : AgreesAction (pure a) (pure a) w :=
  .pure hw (okOrShort_ok a)

theorem bind {x : WordAction Window α} {y : Action Window α} {f : α → WordAction Window β}
    {g : α → Action Window β} (h : AgreesAction x y w)
    (hf : ∀ a w', y w = (.ok a, w') → w.Forward w' → AgreesAction (f a) (g a) w') :
    AgreesAction (x >>= f) (y >>= g) w := by
  obtain ⟨hx, hs, hforward⟩ := h
  cases hy : y w with
  | mk result w' =>
    rw [hy] at hx hs hforward
    cases result with
    | ok a =>
      have hrest := hf a w' hy hforward
      have hleft : (x >>= f) w = f a w' := Word.bind_of_ok hx
      have hright : (y >>= g) w = g a w' := Action.bind_of_ok hy
      refine ⟨?_, ?_, ?_⟩
      · rw [hleft, hright]
        exact hrest.same
      · rw [hright]
        exact hrest.safe
      · rw [hright]
        exact hforward.trans hrest.forward
    | error e =>
      have hleft : (x >>= f) w = .ok (.error e, w') := Word.bind_of_error hx
      have hright : (y >>= g) w = (.error e, w') := Action.bind_of_error hy
      refine ⟨?_, ?_, ?_⟩
      · rw [hleft, hright]
      · rw [hright]
        exact okOrShort_error (hs e rfl)
      · rw [hright]
        exact hforward

theorem discard {x : WordAction Window α} {y : Action Window α} (hw : w.Sound)
    (h : AgreesAction x y w) : AgreesAction (Functor.discard x) (Functor.discard y) w :=
  bind (f := fun _ => Pure.pure PUnit.unit) (g := fun _ => Pure.pure PUnit.unit) h
    fun _ _ _ hforward => ok (hforward.sound hw) PUnit.unit

theorem get_bind {f : Window → WordAction Window α} {g : Window → Action Window α}
    (h : AgreesAction (f w) (g w) w) : AgreesAction (get >>= f) (get >>= g) w :=
  ⟨h.same, h.safe, h.forward⟩

theorem model_get_bind {x : WordAction Window α} {g : Window → Action Window α}
    (h : AgreesAction x (g w) w) : AgreesAction x (get >>= g) w :=
  ⟨h.same, h.safe, h.forward⟩

theorem set_bind {w' : Window} {f : PUnit → WordAction Window α} {g : PUnit → Action Window α}
    (hw : w.Forward w') (h : AgreesAction (f ⟨⟩) (g ⟨⟩) w') :
    AgreesAction (set w' >>= f) (set w' >>= g) w :=
  ⟨h.same, h.safe, hw.trans h.forward⟩

theorem lift {x : WordAction Window α} {y : Except Error α} (hw : w.Sound) (h : Reads x y w) :
    AgreesAction x (liftM y) w :=
  ⟨h.same, h.short, .rfl hw⟩

theorem lift_bind {x : WordAction Window α} {y : Except Error α} {f : α → WordAction Window β}
    {g : α → Action Window β} (hw : w.Sound) (h : Reads x y w)
    (hf : ∀ a, y = .ok a → AgreesAction (f a) (g a) w) :
    AgreesAction (x >>= f) (liftM y >>= g) w := by
  apply bind (lift hw h)
  intro a w' hy _
  cases hy
  exact hf a rfl

theorem discard_bind {x : WordAction Window α} {y : Except Error α}
    {f : PUnit → WordAction Window β} {g : PUnit → Action Window β} (hw : w.Sound)
    (h : Reads x y w) (hf : AgreesAction (f ⟨⟩) (g ⟨⟩) w) :
    AgreesAction (Functor.discard x >>= f) (Functor.discard (liftM y) >>= g) w := by
  apply bind (discard hw (lift hw h))
  intro a w' hy _
  rw [Action.discard_apply, Action.lift_apply] at hy
  obtain ⟨-, rfl⟩ := Prod.mk.inj hy
  exact hf

theorem query_bind {x : WordAction Window α} {look : Window → Except Error α}
    {f : α → WordAction Window β} {g : α → Action Window β} (hw : w.Sound) (h : Reads x (look w) w)
    (hf : ∀ a, look w = .ok a → AgreesAction (f a) (g a) w) :
    AgreesAction (x >>= f) (Action.query look >>= g) w := by
  apply bind (g := g) (⟨h.same, h.short, .rfl hw⟩ : AgreesAction x (Action.query look) w)
  intro a w' hy _
  obtain ⟨hlook, rfl⟩ := Prod.mk.inj hy
  exact hf a hlook

theorem fault_bind {x : Except Fault α} {a : α} {f : α → WordAction Window β}
    {y : Action Window β} (hx : x = .ok a) (h : AgreesAction (f a) y w) :
    AgreesAction ((liftM x : WordAction Window α) >>= f) y w := by
  subst hx
  exact ⟨h.same, h.safe, h.forward⟩

theorem ite {c : Prop} [Decidable c] {x x' : WordAction Window α} {y y' : Action Window α}
    (h : c → AgreesAction x y w) (h' : ¬ c → AgreesAction x' y' w) :
    AgreesAction (if c then x else x') (if c then y else y') w := by
  by_cases hc : c
  · rw [if_pos hc, if_pos hc]
    exact h hc
  · rw [if_neg hc, if_neg hc]
    exact h' hc

end AgreesAction

end SimpleBinary
