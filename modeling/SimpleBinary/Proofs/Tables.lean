import SimpleBinary.Traversal
import SimpleBinary.Walk
import SimpleBinary.Proofs.Action

namespace SimpleBinary

structure TableInduction (P : Field → Prop) (Q : List Field → Prop) : Prop where
  type (f : Field) (t : TypeDef) (hk : f.kind = .type t) : P f
  enum (f : Field) (e : EnumDef) (hk : f.kind = .enum e) : P f
  set (f : Field) (s : SetDef) (hk : f.kind = .set s) : P f
  composite (f : Field) (c : CompositeDef) (hk : f.kind = .composite c) (ih : Q c.fields) : P f
  group (f : Field) (g : GroupDef) (hk : f.kind = .group g) (ih : Q g.fields) : P f
  data (f : Field) (d : DataDef) (hk : f.kind = .data d) : P f
  nil : Q []
  cons (f : Field) (rest : List Field) (hf : P f) (ih : Q rest) : Q (f :: rest)

namespace TableInduction

variable {P : Field → Prop} {Q : List Field → Prop}

mutual

theorem field (h : TableInduction P Q) : ∀ f : Field, P f
  | ⟨_, _, _, .type t, _, _, _⟩ => h.type _ t rfl
  | ⟨_, _, _, .enum e, _, _, _⟩ => h.enum _ e rfl
  | ⟨_, _, _, .set s, _, _, _⟩ => h.set _ s rfl
  | ⟨_, _, _, .composite c, _, _, _⟩ => h.composite _ c rfl (h.table c.fields)
  | ⟨_, _, _, .group g, _, _, _⟩ => h.group _ g rfl (h.table g.fields)
  | ⟨_, _, _, .data d, _, _, _⟩ => h.data _ d rfl

theorem table (h : TableInduction P Q) : ∀ fields : List Field, Q fields
  | [] => h.nil
  | f :: rest => h.cons f rest (h.field f) (h.table rest)

end

theorem of_fixed
    (fixed : ∀ f : Field, (∀ g, f.kind ≠ .group g) → (∀ d, f.kind ≠ .data d) → P f)
    (group : ∀ (f : Field) (g : GroupDef), f.kind = .group g → Q g.fields → P f)
    (data : ∀ (f : Field) (d : DataDef), f.kind = .data d → P f) (nil : Q [])
    (cons : ∀ (f : Field) (rest : List Field), P f → Q rest → Q (f :: rest)) :
    TableInduction P Q where
  type f t hk := fixed f (by simp [hk]) (by simp [hk])
  enum f e hk := fixed f (by simp [hk]) (by simp [hk])
  set f s hk := fixed f (by simp [hk]) (by simp [hk])
  composite f c hk _ := fixed f (by simp [hk]) (by simp [hk])
  group := group
  data := data
  nil := nil
  cons := cons

end TableInduction

namespace Field

variable {f : Field} {base : Nat} {enclosed : Bool} {w : Window}

theorem walk_type {t : TypeDef} (hk : f.kind = .type t) :
    f.walk base enclosed w =
      (.type f.name ((f.bindAt base enclosed w.version).present w)
        ((f.bindAt base enclosed w.version).value w), w) := by
  obtain ⟨name, id, offset, kind, presence, constant, since⟩ := f
  cases hk
  rfl

theorem walk_enum {e : EnumDef} (hk : f.kind = .enum e) :
    f.walk base enclosed w =
      (.enum f.name ((f.bindAt base enclosed w.version).present w)
        ((f.bindAt base enclosed w.version).enumRaw w)
        ((f.bindAt base enclosed w.version).enumName? w), w) := by
  obtain ⟨name, id, offset, kind, presence, constant, since⟩ := f
  cases hk
  rfl

theorem walk_set {s : SetDef} (hk : f.kind = .set s) :
    f.walk base enclosed w =
      (.set f.name ((f.bindAt base enclosed w.version).present w)
        ((f.bindAt base enclosed w.version).bits w)
        ((f.bindAt base enclosed w.version).choices w), w) := by
  obtain ⟨name, id, offset, kind, presence, constant, since⟩ := f
  cases hk
  rfl

theorem walk_composite {c : CompositeDef} (hk : f.kind = .composite c) :
    f.walk base enclosed w =
      (.composite f.name ((f.bindAt base enclosed w.version).present w)
        (walkFields (wordOf (base + f.offset)) (enclosed && f.inVersion w.version) c.fields w).1,
      (walkFields (wordOf (base + f.offset)) (enclosed && f.inVersion w.version)
        c.fields w).2) := by
  obtain ⟨name, id, offset, kind, presence, constant, since⟩ := f
  cases hk
  rfl

theorem walk_group_of_ok {g : GroupDef} (hk : f.kind = .group g) {view : GroupView} {v : Window}
    (hb : GroupView.bind f g (enclosed && f.inVersion w.version) w = (.ok view, v)) :
    f.walk base enclosed w =
      (.group f.name view.count view.blockLength
        (Walk.elements (fun base => walkFields base true g.fields) view.count ⟨view, v⟩).1,
      (Walk.elements (fun base => walkFields base true g.fields) view.count
        ⟨view, v⟩).2.window) := by
  obtain ⟨name, id, offset, kind, presence, constant, since⟩ := f
  cases hk
  have hrun : (GroupView.bind _ g _).run w = _ := hb
  simp only [Field.walk, bindAt, bind, StateT.bind, get, getThe, MonadStateOf.get, StateT.get, pure,
    hrun]
  rfl

theorem walk_group_of_error {g : GroupDef} (hk : f.kind = .group g) {reason : Error} {v : Window}
    (hb : GroupView.bind f g (enclosed && f.inVersion w.version) w = (.error reason, v)) :
    f.walk base enclosed w = (.unreachable reason, v) := by
  obtain ⟨name, id, offset, kind, presence, constant, since⟩ := f
  cases hk
  have hrun : (GroupView.bind _ g _).run w = _ := hb
  simp only [Field.walk, bindAt, bind, StateT.bind, get, getThe, MonadStateOf.get, StateT.get, pure,
    hrun]
  rfl

def dataView (f : Field) (d : DataDef) (enclosed : Bool) (version : UInt16) : DataView :=
  ⟨f, d, enclosed && f.inVersion version⟩

theorem walk_data {d : DataDef} (hk : f.kind = .data d) :
    f.walk base enclosed w =
      (.data f.name ((f.dataView d enclosed w.version).length w)
        ((f.dataView d enclosed w.version).value w).1,
      ((f.dataView d enclosed w.version).value w).2) := by
  obtain ⟨name, id, offset, kind, presence, constant, since⟩ := f
  cases hk
  rfl

end Field

namespace Field

variable {f : Field}

theorem skip_of_fixed (h : ∀ g, f.kind ≠ .group g) (h' : ∀ d, f.kind ≠ .data d) :
    f.skip = return := by
  obtain ⟨name, id, offset, kind, presence, constant, since⟩ := f
  cases kind with
  | group g => exact absurd rfl (h g)
  | data d => exact absurd rfl (h' d)
  | _ => rfl

theorem skip_group {g : GroupDef} (hk : f.kind = .group g) :
    f.skip = (do
      let view ← GroupView.bind f g (f.inVersion (← get).version)
      Iteration.run view (Iteration.forRemaining fun _ => skipFields g.fields)) := by
  obtain ⟨name, id, offset, kind, presence, constant, since⟩ := f
  cases hk
  rfl

theorem skip_data {d : DataDef} (hk : f.kind = .data d) :
    f.skip = (do discard <| DataView.skip ⟨f, d, f.inVersion (← get).version⟩) := by
  obtain ⟨name, id, offset, kind, presence, constant, since⟩ := f
  cases hk
  rfl

end Field

theorem walkFields_cons (base : Nat) (enclosed : Bool) (f : Field) (rest : List Field)
    (w : Window) :
    walkFields base enclosed (f :: rest) w =
      ((f.walk base enclosed w).1 :: (walkFields base enclosed rest (f.walk base enclosed w).2).1,
      (walkFields base enclosed rest (f.walk base enclosed w).2).2) := rfl

end SimpleBinary
