import SimpleBinary.Field.Binding
import SimpleBinary.Proofs.Tables

namespace SimpleBinary.Field

theorem first_member_induction {P : Field → Prop}
    (step : ∀ f : Field, (∀ c, f.kind = .composite c → ∀ first ∈ c.fields.head?, P first) → P f)
    (f : Field) : P f := by
  have h : TableInduction P fun fields => ∀ first ∈ fields.head?, P first := {
    type := fun f t hk => step f (by simp [hk])
    enum := fun f e hk => step f (by simp [hk])
    set := fun f s hk => step f (by simp [hk])
    composite := fun f c hk ih => step f (by
      intro c' hk'
      rw [hk] at hk'
      cases hk'
      exact ih)
    group := fun f g hk _ => step f (by simp [hk])
    data := fun f d hk => step f (by simp [hk])
    nil := by simp
    cons := fun f rest hf _ => by simpa using hf }
  exact h.field f

def storedAt (w : Window) (f : Field) (offset : Nat) : Except Error Bool :=
  match f.kind with
  | .type t => do return !t.primitive.equal (← w.readScalar offset t.primitive) t.null
  | .enum e => do return (← w.readScalar offset e.encoding).toUInt64 != e.null
  | .composite c =>
    match c.fields with
    | first :: _ => first.presentAt w (wordOf (offset + first.offset))
    | [] => .ok true
  | .set _ | .group _ | .data _ => .ok true

theorem presentAt_eq (w : Window) (f : Field) (offset : Nat) :
    f.presentAt w offset =
      if w.version < f.since then .ok false
      else if f.presence ≠ .optional then .ok true
      else f.storedAt w offset := by
  obtain ⟨name, id, start, kind, presence, constant, since⟩ := f
  cases kind with
  | composite c =>
    obtain ⟨cname, fields, length⟩ := c
    cases fields <;> rfl
  | _ => rfl

def requireOptional (f : Field) : Action Window Unit := do
  let w ← get
  if w.version < f.since then throw (f.notInVersion w.version)
  if f.presence ≠ .optional then throw (.resetNotAllowed f.name)

def storeAbsent (f : Field) (offset : Nat) : Action Window Unit :=
  match f.kind with
  | .type t => do
    discard <| (← get).check offset t.encodedLength
    let count := t.encodedLength / t.primitive.size
    Window.write offset (List.replicate count (t.primitive.encode t.null)).flatten
  | .enum e => Window.writeScalar offset e.encoding (.uint e.null)
  | .set s => Window.writeScalar offset s.encoding (.uint 0)
  | .composite c =>
    match c.fields with
    | first :: _ => first.resetAt (wordOf (offset + first.offset))
    | [] => return
  | .group _ | .data _ => throw (.resetNotAllowed f.name)

theorem requireOptional_bind (f : Field) (store : Window → Action Window Unit) :
    (do
      let w ← get
      if w.version < f.since then throw (f.notInVersion w.version)
      if f.presence ≠ .optional then throw (.resetNotAllowed f.name)
      store w) = f.requireOptional >>= fun _ => get >>= store := by
  funext w
  by_cases hv : w.version < f.since
  · simp only [requireOptional, Action.bind_apply, Action.get_apply, hv, if_true,
      Action.throw_apply]
  · by_cases hp : f.presence ≠ .optional
    · simp only [requireOptional, Action.bind_apply, Action.get_apply, hv, if_false, hp,
        not_false_eq_true, if_true, ne_eq, Action.throw_apply]
    · simp only [requireOptional, Action.bind_apply, Action.get_apply, hv, if_false, hp,
        Action.pure_apply]

theorem resetAt_eq (f : Field) (offset : Nat) :
    f.resetAt offset = f.requireOptional >>= fun _ => f.storeAbsent offset := by
  obtain ⟨name, id, start, kind, presence, constant, since⟩ := f
  -- The kinds differ in what is stored; the check in front is one.
  cases kind with
  | type t =>
    exact requireOptional_bind ⟨name, id, start, .type t, presence, constant, since⟩ fun w => do
      discard <| w.check offset t.encodedLength
      let count := t.encodedLength / t.primitive.size
      Window.write offset (List.replicate count (t.primitive.encode t.null)).flatten
  | composite c =>
    obtain ⟨cname, fields, length⟩ := c
    cases fields with
    | nil =>
      exact requireOptional_bind
        ⟨name, id, start, .composite ⟨cname, [], length⟩, presence, constant, since⟩
        fun _ => return
    | cons first rest =>
      exact requireOptional_bind
        ⟨name, id, start, .composite ⟨cname, first :: rest, length⟩, presence, constant, since⟩
        fun _ => first.resetAt (wordOf (offset + first.offset))
  | enum e =>
    exact requireOptional_bind ⟨name, id, start, .enum e, presence, constant, since⟩
      fun _ => Window.writeScalar offset e.encoding (.uint e.null)
  | set s =>
    exact requireOptional_bind ⟨name, id, start, .set s, presence, constant, since⟩
      fun _ => Window.writeScalar offset s.encoding (.uint 0)
  | group g =>
    exact requireOptional_bind ⟨name, id, start, .group g, presence, constant, since⟩
      fun _ => throw (.resetNotAllowed name)
  | data d =>
    exact requireOptional_bind ⟨name, id, start, .data d, presence, constant, since⟩
      fun _ => throw (.resetNotAllowed name)

end SimpleBinary.Field
