import SimpleBinary.Proofs.Access

namespace SimpleBinary

structure Alike {σ α : Type} (R : σ → σ → Prop) (x y : Action σ α) (s s' : σ) : Prop where
  result : (y s').1 = (x s).1
  related : R (x s).2 (y s').2

namespace Alike

variable {σ τ α β : Type} {R : σ → σ → Prop} {s s' : σ}

theorem pure (h : R s s') (a : α) : Alike R (Pure.pure a) (Pure.pure a) s s' :=
  ⟨rfl, h⟩

theorem throw (h : R s s') (e : Error) :
    Alike R (MonadExcept.throw e : Action σ α) (MonadExcept.throw e) s s' :=
  ⟨rfl, h⟩

theorem lift (h : R s s') {x x' : Except Error α} (hx : x' = x) :
    Alike R (liftM x) (liftM x') s s' :=
  ⟨hx, h⟩

theorem query (h : R s s') {look : σ → Except Error α} (hl : look s' = look s) :
    Alike R (Action.query look) (Action.query look) s s' :=
  ⟨hl, h⟩

theorem bind_of {x y : Action σ α} {f g : α → Action σ β} (h : Alike R x y s s')
    (hf : ∀ a t t', x s = (.ok a, t) → R t t' → Alike R (f a) (g a) t t') :
    Alike R (x >>= f) (y >>= g) s s' := by
  obtain ⟨hresult, hrelated⟩ := h
  cases hx : x s with
  | mk result t =>
    cases hy : y s' with
    | mk result' t' =>
      rw [hx, hy] at hresult hrelated
      cases hresult
      cases result with
      | ok a =>
        have hrest := hf a t t' hx hrelated
        refine ⟨?_, ?_⟩
        · rw [Action.bind_of_ok hx, Action.bind_of_ok hy]
          exact hrest.result
        · rw [Action.bind_of_ok hx, Action.bind_of_ok hy]
          exact hrest.related
      | error e =>
        refine ⟨?_, ?_⟩
        · rw [Action.bind_of_error hx, Action.bind_of_error hy]
        · rw [Action.bind_of_error hx, Action.bind_of_error hy]
          exact hrelated

theorem bind {x y : Action σ α} {f g : α → Action σ β} (h : Alike R x y s s')
    (hf : ∀ a t t', R t t' → Alike R (f a) (g a) t t') : Alike R (x >>= f) (y >>= g) s s' :=
  bind_of h fun a t t' _ => hf a t t'

theorem get_bind {f g : σ → Action σ α} (h : Alike R (f s) (g s') s s') :
    Alike R (get >>= f) (get >>= g) s s' :=
  ⟨h.result, h.related⟩

theorem change {f g : σ → σ} (h : R (f s) (g s')) :
    Alike R (modify f : Action σ PUnit) (modify g) s s' :=
  ⟨rfl, h⟩

theorem lift_bind (h : R s s') {x x' : Except Error α} {f g : α → Action σ β} (hx : x' = x)
    (hf : ∀ a, x = .ok a → Alike R (f a) (g a) s s') :
    Alike R (liftM x >>= f) (liftM x' >>= g) s s' := by
  subst hx
  cases x' with
  | ok a => exact ⟨(hf a rfl).result, (hf a rfl).related⟩
  | error e => exact ⟨rfl, h⟩

theorem discard {x y : Action σ α} (h : Alike R x y s s') :
    Alike R (Functor.discard x) (Functor.discard y) s s' := by
  refine ⟨?_, ?_⟩
  · rw [Action.discard_apply, Action.discard_apply, h.result]
  · rw [Action.discard_apply, Action.discard_apply]
    exact h.related

theorem ite {c : Prop} [Decidable c] {x x' y y' : Action σ α} (h : c → Alike R x y s s')
    (h' : ¬ c → Alike R x' y' s s') :
    Alike R (if c then x else x') (if c then y else y') s s' := by
  by_cases hc : c
  · rw [if_pos hc, if_pos hc]
    exact h hc
  · rw [if_neg hc, if_neg hc]
    exact h' hc

theorem guard {c : Prop} [Decidable c] {e : Error} {f g : β → Action σ α} {x y : Action σ α}
    (h : R s s') (hx : ¬ c → Alike R x y s s') :
    Alike R (if c then MonadExcept.throw e >>= f else x)
      (if c then MonadExcept.throw e >>= g else y) s s' := by
  rw [Action.throw_bind, Action.throw_bind]
  exact .ite (fun _ => .throw h e) hx

theorem onPart {Q : τ → τ → Prop} {get get' : σ → τ} {set set' : τ → σ → σ} {x y : Action τ α}
    (h : Alike Q x y (get s) (get' s'))
    (hset : ∀ t t', Q t t' → R (set t s) (set' t' s')) :
    Alike R (Action.onPart get set x) (Action.onPart get' set' y) s s' :=
  ⟨h.result, hset _ _ h.related⟩

theorem congr {x x' y y' : Action σ α} (h : Alike R x y s s') (hx : x' s = x s)
    (hy : y' s' = y s') : Alike R x' y' s s' := by
  constructor
  · rw [hx, hy]
    exact h.result
  · rw [hx, hy]
    exact h.related

end Alike

structure Surroundings where
  before : Bytes
  size : Nat
  after : Bytes

namespace Surroundings

def around (a : Surroundings) (inner : Bytes) : Bytes :=
  a.before ++ inner ++ a.after

def start (a : Surroundings) : Nat :=
  a.before.length

def stop (a : Surroundings) : Nat :=
  a.start + a.size

variable {a b : Surroundings} {inner inner' part : Bytes} {start size i : Nat}

theorem length_around (a : Surroundings) (inner : Bytes) :
    (a.around inner).length = a.start + inner.length + a.after.length := by
  simp only [around, Surroundings.start, List.length_append]

theorem stop_le_length (hi : inner.length = a.size) : a.stop ≤ (a.around inner).length := by
  rw [length_around, stop, hi]
  exact Nat.le_add_right _ _

theorem slice_around (hi : inner.length = a.size) (hl : a.start ≤ start)
    (hr : start + size ≤ a.stop) :
    (a.around inner).slice start size = inner.slice (start - a.start) size := by
  unfold around
  rw [Bytes.slice_append_left (by simp only [List.length_append, hi]; exact hr),
    Bytes.slice_append_right hl]
  rfl

theorem overwrite_around (hi : inner.length = a.size) (hl : a.start ≤ start)
    (hr : start + part.length ≤ a.stop) :
    (a.around inner).overwrite start part = a.around (inner.overwrite (start - a.start) part) := by
  obtain ⟨k, rfl⟩ := Nat.exists_eq_add_of_le hl
  unfold stop at hr
  have hk : k ≤ inner.length := by omega
  have hk' : k + part.length ≤ inner.length := by omega
  rw [Nat.add_sub_cancel_left]
  unfold around Surroundings.start Bytes.overwrite
  rw [List.append_assoc a.before, Nat.add_assoc, List.take_length_add_append,
    List.drop_length_add_append, List.take_append_of_le_length hk,
    List.drop_append_of_le_length hk']
  simp only [List.append_assoc]

theorem getElem?_outside (hi : inner.length = a.size) (hi' : inner'.length = a.size)
    (h : i < a.start ∨ a.stop ≤ i) : (a.around inner')[i]? = (a.around inner)[i]? := by
  unfold stop Surroundings.start at h
  unfold around
  rcases h with hlt | hle
  · rw [List.append_assoc, List.append_assoc, List.getElem?_append_left hlt,
      List.getElem?_append_left hlt]
  · rw [List.getElem?_append_right (by rw [List.length_append, hi']; exact hle),
      List.getElem?_append_right (by rw [List.length_append, hi]; exact hle),
      List.length_append, List.length_append, hi, hi']

theorem getElem?_inside (hi : inner.length = a.size) (hs : b.start = a.start)
    (hl : a.start ≤ i) (hr : i < a.stop) : (b.around inner)[i]? = (a.around inner)[i]? := by
  unfold stop at hr
  unfold Surroundings.start at hs hl hr
  have hb : i < (b.before ++ inner).length := by
    rw [List.length_append]
    omega
  have ha : i < (a.before ++ inner).length := by
    rw [List.length_append]
    omega
  rw [around, around, List.getElem?_append_left hb, List.getElem?_append_left ha,
    List.getElem?_append_right (by omega), List.getElem?_append_right hl, hs]

def of (bytes : Bytes) (start stop : Nat) : Surroundings :=
  ⟨bytes.take start, stop - start, bytes.drop stop⟩

variable {bytes : Bytes} {stop : Nat}

theorem start_of (hs : start ≤ stop) (hl : stop ≤ bytes.length) :
    (of bytes start stop).start = start :=
  List.length_take_of_le (Nat.le_trans hs hl)

theorem stop_of (hs : start ≤ stop) (hl : stop ≤ bytes.length) :
    (of bytes start stop).stop = stop := by
  rw [Surroundings.stop, start_of hs hl]
  exact Nat.add_sub_of_le hs

theorem around_of (hs : start ≤ stop) :
    (of bytes start stop).around (bytes.slice start (stop - start)) = bytes := by
  have hdrop : bytes.drop stop = (bytes.drop start).drop (stop - start) := by
    rw [List.drop_drop, Nat.add_sub_of_le hs]
  rw [around, of, Bytes.slice, hdrop, List.append_assoc, List.take_append_drop,
    List.take_append_drop]

end Surroundings

structure Surroundings.Parallel (a b : Surroundings) : Prop where
  start_eq : b.start = a.start
  size_eq : b.size = a.size

theorem Surroundings.Parallel.stop_eq {a b : Surroundings} (h : a.Parallel b) :
    b.stop = a.stop := by
  rw [stop, stop, h.start_eq, h.size_eq]

/-- Two windows with the same bytes between surroundings, which end at the limit. The position is
between them too. -/
structure Twins (a b : Surroundings) (w w' : Window) : Prop extends a.Parallel b where
  shared : ∃ inner, inner.length = a.size ∧ w.bytes = a.around inner ∧ w'.bytes = b.around inner
  start_le : a.start ≤ w.position
  position_le : w.position ≤ a.stop
  limit_stop : w.limit = a.stop
  limit_eq : w'.limit = w.limit
  position_eq : w'.position = w.position
  version_eq : w'.version = w.version

namespace Twins

variable {a b : Surroundings} {w w' : Window}

theorem opened (h : a.Parallel b) {inner : Bytes} (hi : inner.length = a.size) {position : Nat}
    (hs : a.start ≤ position) (hp : position ≤ a.stop) (version : UInt16)
    (hmax : a.stop ≤ Window.maxPosition) :
    Twins a b ⟨a.around inner, a.stop, position, version, hmax⟩
      ⟨b.around inner, a.stop, position, version, hmax⟩ :=
  { h with
    shared := ⟨inner, hi, rfl, rfl⟩
    start_le := hs
    position_le := hp
    limit_stop := rfl
    limit_eq := rfl
    position_eq := rfl
    version_eq := rfl }

theorem check_eq (h : Twins a b w w') (start size : Nat) :
    w'.check start size = w.check start size := by
  simp only [Window.check, h.limit_eq]

theorem read_eq (h : Twins a b w w') {start : Nat} (hs : a.start ≤ start) (size : Nat) :
    w'.read start size = w.read start size := by
  by_cases hle : start + size ≤ w.limit
  · obtain ⟨inner, hi, hw, hw'⟩ := h.shared
    have hstop := h.limit_stop
    rw [Window.read_of_le hle, Window.read_of_le (by rw [h.limit_eq]; exact hle), hw, hw',
      Surroundings.slice_around hi hs (by omega),
      Surroundings.slice_around (by rw [h.size_eq]; exact hi) (by rw [h.start_eq]; exact hs)
        (by rw [h.toParallel.stop_eq]; omega), h.start_eq]
  · have hlt := Nat.lt_of_not_le hle
    rw [Window.read_of_lt hlt, Window.read_of_lt (by rw [h.limit_eq]; exact hlt)]
    simp only [Window.tooShort, h.limit_eq]

theorem readScalar_eq (h : Twins a b w w') {start : Nat} (hs : a.start ≤ start) (p : Primitive) :
    w'.readScalar start p = w.readScalar start p := by
  rw [Window.readScalar, Window.readScalar, h.read_eq hs]

theorem readElement_eq (h : Twins a b w w') {start : Nat} (hs : a.start ≤ start) (α : Type)
    [Element α] : w'.readElement α start = w.readElement α start := by
  rw [Window.readElement, Window.readElement, h.read_eq hs]

theorem at_position (h : Twins a b w w') {position : Nat} (hs : a.start ≤ position)
    (hp : position ≤ w.limit) : Twins a b { w with position } { w' with position } :=
  { h with start_le := hs, position_le := h.limit_stop ▸ hp, position_eq := rfl }

theorem wordOf_position (h : Twins a b w w') {n k : Nat} (hword : a.stop + n < UInt64.size)
    (hk : k ≤ n) : wordOf (w.position + k) = w.position + k := by
  have hp := h.position_le
  exact wordOf_of_lt (by omega)

theorem written (h : Twins a b w w') {start : Nat} {part : Bytes} (hs : a.start ≤ start)
    (hle : start + part.length ≤ w.limit) :
    Twins a b (w.written start part) (w'.written start part) := by
  obtain ⟨inner, hi, hw, hw'⟩ := h.shared
  have hstop := h.limit_stop
  unfold Surroundings.stop at hstop
  refine { h with shared := ⟨inner.overwrite (start - a.start) part, ?_, ?_, ?_⟩ }
  · rw [Bytes.length_overwrite (by omega), hi]
  · rw [Window.written_bytes, hw,
      Surroundings.overwrite_around hi hs (by unfold Surroundings.stop; omega)]
  · have hstop : start + part.length ≤ b.stop := by
      rw [h.toParallel.stop_eq]
      unfold Surroundings.stop
      omega
    rw [Window.written_bytes, hw', Surroundings.overwrite_around (by rw [h.size_eq]; exact hi)
      (by rw [h.start_eq]; exact hs) hstop, h.start_eq]

end Twins

def Confined {α : Type} (a b : Surroundings) (x : Action Window α) : Prop :=
  ∀ w w', Twins a b w w' → Alike (Twins a b) x x w w'

namespace Confined

variable {a b : Surroundings} {α β : Type}

theorem pure (r : α) : Confined a b (Pure.pure r) :=
  fun _ _ h => .pure h r

theorem throw (e : Error) : Confined a b (MonadExcept.throw e : Action Window α) :=
  fun _ _ h => .throw h e

theorem lift (x : Except Error α) : Confined a b (liftM x) :=
  fun _ _ h => .lift h rfl

theorem query {look : Window → Except Error α} (hl : ∀ w w', Twins a b w w' → look w' = look w) :
    Confined a b (Action.query look) :=
  fun w w' h => .query h (hl w w' h)

theorem bind {x : Action Window α} {f : α → Action Window β} (h : Confined a b x)
    (hf : ∀ r, Confined a b (f r)) : Confined a b (x >>= f) :=
  fun w w' ht => .bind (h w w' ht) fun r => hf r

theorem bind_of {P : α → Prop} {x : Action Window α} {f : α → Action Window β}
    (h : Confined a b x)
    (hx : ∀ w r w', a.start ≤ w.position → x w = (.ok r, w') → P r)
    (hf : ∀ r, P r → Confined a b (f r)) : Confined a b (x >>= f) := by
  intro w w' ht
  have hrest : ∀ (r : α) (t t' : Window), x w = (.ok r, t) → Twins a b t t' →
      Alike (Twins a b) (f r) (f r) t t' :=
    fun r t t' hr => hf r (hx w r t ht.start_le hr) t t'
  exact .bind_of (h w w' ht) hrest

theorem lift_bind {x : Except Error α} {f : α → Action Window β}
    (hf : ∀ r, x = .ok r → Confined a b (f r)) : Confined a b (liftM x >>= f) :=
  fun w w' ht => .lift_bind ht rfl fun r hr => hf r hr w w' ht

theorem discard {x : Action Window α} (h : Confined a b x) : Confined a b (Functor.discard x) :=
  fun w w' ht => .discard (h w w' ht)

theorem ite {c : Prop} [Decidable c] {x y : Action Window α} (h : c → Confined a b x)
    (h' : ¬ c → Confined a b y) : Confined a b (if c then x else y) := by
  by_cases hc : c
  · rw [if_pos hc]
    exact h hc
  · rw [if_neg hc]
    exact h' hc

theorem guard {c : Prop} [Decidable c] {e : Error} {f : β → Action Window α} {x : Action Window α}
    (h : ¬ c → Confined a b x) : Confined a b (if c then MonadExcept.throw e >>= f else x) :=
  fun w w' ht => .guard ht fun hc => h hc w w' ht

theorem get_bind {f : Window → Action Window α}
    (hf : ∀ w w', Twins a b w w' → f w' = f w ∧ Confined a b (f w)) :
    Confined a b (get >>= f) := by
  intro w w' ht
  obtain ⟨heq, hconfined⟩ := hf w w' ht
  apply Alike.get_bind
  rw [heq]
  exact hconfined w w' ht

theorem advance (size : Nat) : Confined a b (Window.advance size) := by
  intro w w' h
  have hs := h.start_le
  by_cases hle : w.position + size ≤ w.limit
  · have hle' : w'.position + size ≤ w'.limit := by rw [h.position_eq, h.limit_eq]; exact hle
    refine ⟨?_, ?_⟩
    · rw [Window.advance_of_le hle, Window.advance_of_le hle', h.position_eq]
    · rw [Window.advance_of_le hle, Window.advance_of_le hle']
      have hmoved := h.at_position (Nat.le_add_right_of_le hs) hle
      simpa only [Window.moved, h.position_eq] using hmoved
  · have hlt := Nat.lt_of_not_le hle
    have hlt' : w'.limit < w'.position + size := by rw [h.position_eq, h.limit_eq]; exact hlt
    refine ⟨?_, ?_⟩
    · rw [Window.advance_of_lt hlt, Window.advance_of_lt hlt']
      simp only [Window.tooShort, h.position_eq, h.limit_eq]
    · rw [Window.advance_of_lt hlt, Window.advance_of_lt hlt']
      exact h

theorem seek {position : Nat} (hs : a.start ≤ position) : Confined a b (Window.seek position) := by
  unfold Window.seek
  intro w w' h
  apply Alike.get_bind
  apply Alike.lift_bind h (h.check_eq position 0)
  intro stop hstop
  obtain ⟨hle, rfl⟩ := Window.check_eq_ok.mp hstop
  exact ⟨rfl, h.at_position hs hle⟩

theorem write {start : Nat} (hs : a.start ≤ start) (part : Bytes) :
    Confined a b (Window.write start part) := by
  intro w w' h
  by_cases hle : start + part.length ≤ w.limit
  · have hle' : start + part.length ≤ w'.limit := by rw [h.limit_eq]; exact hle
    refine ⟨?_, ?_⟩
    · rw [Window.write_of_le hle, Window.write_of_le hle']
    · rw [Window.write_of_le hle, Window.write_of_le hle']
      exact h.written hs hle
  · have hlt := Nat.lt_of_not_le hle
    have hlt' : w'.limit < start + part.length := by rw [h.limit_eq]; exact hlt
    refine ⟨?_, ?_⟩
    · rw [Window.write_of_lt hlt, Window.write_of_lt hlt']
      simp only [Window.tooShort, h.limit_eq]
    · rw [Window.write_of_lt hlt, Window.write_of_lt hlt']
      exact h

end Confined

end SimpleBinary
