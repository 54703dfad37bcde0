import SimpleBinary.Window

namespace SimpleBinary.Action

variable {σ τ α β : Type}

@[simp] theorem pure_apply (a : α) (s : σ) : (pure a : Action σ α) s = (.ok a, s) := rfl

@[simp] theorem throw_apply (e : Error) (s : σ) : (throw e : Action σ α) s = (.error e, s) := rfl

@[simp] theorem lift_apply (x : Except Error α) (s : σ) : (liftM x : Action σ α) s = (x, s) := rfl

@[simp] theorem query_apply (look : σ → Except Error α) (s : σ) : query look s = (look s, s) := rfl

@[simp] theorem get_apply (s : σ) : (get : Action σ σ) s = (.ok s, s) := rfl

@[simp] theorem set_apply (s t : σ) : (set t : Action σ PUnit) s = (.ok ⟨⟩, t) := rfl

@[simp] theorem modify_apply (f : σ → σ) (s : σ) :
    (modify f : Action σ PUnit) s = (.ok ⟨⟩, f s) := rfl

@[simp] theorem ok_bind (a : α) (f : α → Except Error β) : (.ok a >>= f) = f a := rfl

theorem except_bind_congr {x : Except Error α} {f g : α → Except Error β}
    (h : ∀ a, x = .ok a → f a = g a) : (x >>= f) = (x >>= g) := by
  cases x with
  | ok a => exact h a rfl
  | error e => rfl

theorem except_bind_eq_ok {x : Except Error α} {f : α → Except Error β} {b : β}
    (h : (x >>= f) = .ok b) : ∃ a, x = .ok a ∧ f a = .ok b := by
  cases x with
  | ok a => exact ⟨a, rfl, h⟩
  | error e => cases h

@[simp] theorem discard_ok (a : α) : discard (.ok a : Except Error α) = .ok ⟨⟩ := rfl

theorem onPart_apply (get : σ → τ) (set : τ → σ → σ) (action : Action τ α) (s : σ) :
    onPart get set action s = ((action (get s)).1, set (action (get s)).2 s) := rfl

theorem bind_apply (x : Action σ α) (f : α → Action σ β) (s : σ) :
    (x >>= f) s = match x s with
      | (.ok a, t) => f a t
      | (.error e, t) => (.error e, t) := by
  have hstep : (x >>= f) s = ExceptT.bindCont f (x s).1 (x s).2 := rfl
  rw [hstep]
  rcases x s with ⟨result, t⟩
  cases result <;> rfl

theorem bind_of_ok {x : Action σ α} {f : α → Action σ β} {s t : σ} {a : α} (h : x s = (.ok a, t)) :
    (x >>= f) s = f a t := by
  rw [bind_apply, h]

theorem bind_of_error {x : Action σ α} {f : α → Action σ β} {s t : σ} {e : Error}
    (h : x s = (.error e, t)) : (x >>= f) s = (.error e, t) := by
  rw [bind_apply, h]

theorem bind_eq_ok {x : Action σ α} {f : α → Action σ β} {s u : σ} {b : β}
    (h : (x >>= f) s = (.ok b, u)) : ∃ a t, x s = (.ok a, t) ∧ f a t = (.ok b, u) := by
  rw [bind_apply] at h
  cases hx : x s with
  | mk result t =>
    rw [hx] at h
    cases result with
    | ok a => exact ⟨a, t, rfl, h⟩
    | error e => cases h

@[simp] theorem throw_bind (e : Error) (f : α → Action σ β) : (throw e >>= f) = throw e := by
  funext s
  exact bind_of_error rfl

@[simp] theorem discard_apply (x : Action σ α) (s : σ) :
    (discard x : Action σ PUnit) s = ((x s).1.map fun _ => ⟨⟩, (x s).2) := by
  have hstep : (discard x : Action σ PUnit) s = (x >>= fun _ => pure ⟨⟩) s := rfl
  rw [hstep, bind_apply]
  rcases x s with ⟨result, t⟩
  cases result <;> rfl

@[simp] theorem map_apply (f : α → β) (x : Action σ α) (s : σ) :
    (f <$> x) s = ((x s).1.map f, (x s).2) := by
  rw [map_eq_pure_bind, bind_apply]
  rcases x s with ⟨result, t⟩
  cases result <;> rfl

theorem exists_of_isOk {x : Action σ α} {s : σ} (h : (x s).1.isOk = true) :
    ∃ a t, x s = (.ok a, t) := by
  rcases hx : x s with ⟨e | a, t⟩
  · rw [hx] at h
    cases h
  · exact ⟨a, t, rfl⟩

end SimpleBinary.Action
