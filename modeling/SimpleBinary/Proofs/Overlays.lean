import SimpleBinary.Proofs.Alike
import SimpleBinary.Proofs.Edits
import SimpleBinary.Proofs.Variable

namespace SimpleBinary

structure Bytes.Overlaid (a b x y : Bytes) : Prop where
  same_length : a.length = b.length
  length_left : x.length = a.length
  length_right : y.length = b.length
  byte (i : Nat) : x[i]? = y[i]? ∨ x[i]? = a[i]? ∧ y[i]? = b[i]?

namespace Bytes.Overlaid

variable {a b x y part : Bytes} {start : Nat}

theorem refl (h : a.length = b.length) : Overlaid a b a b where
  same_length := h
  length_left := rfl
  length_right := rfl
  byte _ := .inr ⟨rfl, rfl⟩

theorem length_eq (h : Overlaid a b x y) : y.length = x.length := by
  rw [h.length_left, h.length_right, h.same_length]

theorem overwrite (h : Overlaid a b x y) (hl : start + part.length ≤ x.length) :
    Overlaid a b (x.overwrite start part) (y.overwrite start part) where
  same_length := h.same_length
  length_left := (length_overwrite hl).trans h.length_left
  length_right := (length_overwrite (h.length_eq ▸ hl)).trans h.length_right
  byte i := by
    rw [getElem?_overwrite hl, getElem?_overwrite (h.length_eq ▸ hl)]
    by_cases hi : i < start ∨ start + part.length ≤ i
    · rw [if_pos hi, if_pos hi]
      exact h.byte i
    · rw [if_neg hi, if_neg hi]
      exact .inl rfl

end Bytes.Overlaid

structure Window.Overlaid (a b : Bytes) (w w' : Window) : Prop where
  bytes : Bytes.Overlaid a b w.bytes w'.bytes
  limit_le : w.limit ≤ w.bytes.length
  limit_eq : w'.limit = w.limit
  position_eq : w'.position = w.position
  version_eq : w'.version = w.version

section

variable {a b : Bytes} {w w' : Window} {start size : Nat}

namespace Window

theorem Overlaid.check_eq (h : Overlaid a b w w') (start size : Nat) :
    w'.check start size = w.check start size := by
  simp only [check, h.limit_eq]

theorem alike_write_overlaid (h : Overlaid a b w w') (start : Nat) (part : Bytes) :
    Alike (Overlaid a b) (write start part) (write start part) w w' := by
  by_cases hle : start + part.length ≤ w.limit
  · have hwrite : write start part w = _ := write_of_le hle
    have hwrite' : write start part w' = _ := write_of_le (h.limit_eq ▸ hle)
    have hfit := Nat.le_trans hle h.limit_le
    constructor
    · rw [hwrite, hwrite']
    · rw [hwrite, hwrite']
      exact {
        bytes := h.bytes.overwrite hfit
        limit_le := by
          rw [written_bytes, Bytes.length_overwrite hfit]
          exact h.limit_le
        limit_eq := h.limit_eq
        position_eq := h.position_eq
        version_eq := h.version_eq }
  · have hlt := Nat.lt_of_not_le hle
    have hwrite : write start part w = _ := write_of_lt hlt
    have hwrite' : write start part w' = _ := write_of_lt (h.limit_eq ▸ hlt)
    constructor
    · rw [hwrite, hwrite', tooShort, tooShort, h.limit_eq]
    · rw [hwrite, hwrite']
      exact h

theorem Overlaid.moved (h : Overlaid a b w w') (size : Nat) :
    Overlaid a b (w.moved size) (w'.moved size) where
  bytes := h.bytes
  limit_le := h.limit_le
  limit_eq := h.limit_eq
  position_eq := congrArg (· + size) h.position_eq
  version_eq := h.version_eq

theorem alike_advance_overlaid (h : Overlaid a b w w') (size : Nat) :
    Alike (Overlaid a b) (advance size) (advance size) w w' := by
  by_cases hle : w.position + size ≤ w.limit
  · have hadvance := advance_of_le hle
    have hadvance' : advance size w' = _ :=
      advance_of_le (by rw [h.position_eq, h.limit_eq]; exact hle)
    constructor
    · rw [hadvance, hadvance', h.position_eq]
    · rw [hadvance, hadvance']
      exact h.moved size
  · have hlt := Nat.lt_of_not_le hle
    have hadvance := advance_of_lt hlt
    have hadvance' : advance size w' = _ :=
      advance_of_lt (by rw [h.position_eq, h.limit_eq]; exact hlt)
    constructor
    · rw [hadvance, hadvance', tooShort, tooShort, h.limit_eq, h.position_eq]
    · rw [hadvance, hadvance']
      exact h

end Window

namespace Binding

theorem alike_settle (h : Window.Overlaid a b w w') (f : Binding)
    (edit : Except Error (Option Edit)) :
    Alike (Window.Overlaid a b) (f.settle edit) (f.settle edit) w w' := by
  rcases edit with e | _ | edit
  · exact .throw h e
  · exact .pure h _
  · exact Window.alike_write_overlaid h _ _

theorem alike_setValue_overlaid (h : Window.Overlaid a b w w') (f : Binding) (v : Value) :
    Alike (Window.Overlaid a b) (f.setValue v) (f.setValue v) w w' :=
  (alike_settle h f (f.editOf w.version v)).congr (setValue_eq v)
    (by rw [setValue_eq, h.version_eq])

theorem alike_reset_overlaid (h : Window.Overlaid a b w w') (f : Binding) :
    Alike (Window.Overlaid a b) f.reset f.reset w w' :=
  (alike_settle h f (f.editOptional w.version)).congr reset_eq (by rw [reset_eq, h.version_eq])

theorem alike_setEnumRaw_overlaid (h : Window.Overlaid a b w w') (f : Binding) (raw : UInt64) :
    Alike (Window.Overlaid a b) (f.setEnumRaw raw) (f.setEnumRaw raw) w w' :=
  (alike_settle h f (f.editRaw w.version raw)).congr (setEnumRaw_eq raw)
    (by rw [setEnumRaw_eq, h.version_eq])

theorem alike_setEnumName_overlaid (h : Window.Overlaid a b w w') (f : Binding) (name : String) :
    Alike (Window.Overlaid a b) (f.setEnumName name) (f.setEnumName name) w w' :=
  (alike_settle h f (f.editName w.version name)).congr (setEnumName_eq name)
    (by rw [setEnumName_eq, h.version_eq])

theorem alike_setBits_overlaid (h : Window.Overlaid a b w w') (f : Binding) (set : BitSet) :
    Alike (Window.Overlaid a b) (f.setBits set) (f.setBits set) w w' :=
  (alike_settle h f (f.editBits w.version set)).congr (setBits_eq set)
    (by rw [setBits_eq, h.version_eq])

end Binding

theorem DataView.alike_setValue_overlaid (h : Window.Overlaid a b w w') (d : DataView)
    (bytes : Bytes) : Alike (Window.Overlaid a b) (d.setValue bytes) (d.setValue bytes) w w' := by
  unfold setValue
  apply Alike.guard h
  intro _
  apply Alike.bind
  · unfold writeLength
    apply Alike.get_bind
    rw [h.version_eq, h.position_eq, h.check_eq]
    apply Alike.guard h
    intro _
    apply Alike.guard h
    intro _
    apply Alike.bind (.discard (.lift h rfl))
    intro _ t t' ht
    apply Alike.bind (Window.alike_write_overlaid ht _ _)
    intro _ u u' hu
    exact .pure hu _
  · intro start t t' ht
    apply Alike.bind (Window.alike_write_overlaid ht _ _)
    intro _ u u' hu
    exact .discard (Window.alike_advance_overlaid hu _)

structure GroupView.SameHeader (g g' : GroupView) : Prop where
  field_eq : g'.field = g.field
  definition_eq : g'.definition = g.definition
  headerOffset_eq : g'.headerOffset = g.headerOffset
  index_eq : g'.index = g.index
  visible_eq : g'.visible = g.visible

structure Iteration.Overlaid (a b : Bytes) (it it' : Iteration) : Prop where
  group_eq : it'.group = it.group
  window : Window.Overlaid a b it.window it'.window

theorem Window.Overlaid.readScalar (h : Window.Overlaid a b w w') (start : Nat) (p : Primitive) :
    (∃ e, w.readScalar start p = .error e ∧ w'.readScalar start p = .error e) ∨
      ∃ s s', w.readScalar start p = .ok s ∧ w'.readScalar start p = .ok s' := by
  by_cases hle : start + p.size ≤ w.limit
  · exact .inr ⟨_, _, Window.readScalar_of_read (Window.read_of_le hle),
      Window.readScalar_of_read (Window.read_of_le (h.limit_eq ▸ hle))⟩
  · have hlt := Nat.lt_of_not_le hle
    refine .inl ⟨w.tooShort (start + p.size), ?_, ?_⟩
    · rw [Window.readScalar, Window.read_of_lt hlt]
      rfl
    · rw [Window.readScalar, Window.read_of_lt (h.limit_eq ▸ hlt), tooShort, tooShort, h.limit_eq]
      rfl

namespace GroupView

theorem bind_of_le {g : GroupDef} {w : Window}
    (h : w.position + g.dimension.encodedLength ≤ w.limit) (f : Field) :
    bind f g true w = (do
      let blockLength ← w.readScalar (wordOf (w.position + g.blockLengthMember.offset))
        g.blockLengthMember.primitive
      let count ← w.readScalar (wordOf (w.position + g.numInGroupMember.offset))
        g.numInGroupMember.primitive
      discard <| Window.advance g.dimension.encodedLength
      return ⟨f, g, w.position, blockLength.toUInt64.toNat, count.toUInt64.toNat, 0, none, true⟩ :
        Action Window GroupView) w := by
  simp only [bind, Action.bind_apply, Action.get_apply, Bool.not_true, Bool.false_eq_true, if_false,
    Action.discard_apply, Action.lift_apply, Window.check_of_le h, Except.map]

theorem bind_overlaid (h : Window.Overlaid a b w w') (f : Field) (g : GroupDef) (visible : Bool) :
    (∃ e, bind f g visible w = (.error e, w) ∧ bind f g visible w' = (.error e, w')) ∨
      ∃ view view' v v', bind f g visible w = (.ok view, v) ∧
        bind f g visible w' = (.ok view', v') ∧ view.SameHeader view' ∧
        Window.Overlaid a b v v' := by
  cases visible with
  | false =>
    exact .inr ⟨_, _, w, w', rfl, rfl, ⟨rfl, rfl, h.position_eq, rfl, rfl⟩, h⟩
  | true =>
    by_cases hle : w.position + g.dimension.encodedLength ≤ w.limit
    · have hle' : w'.position + g.dimension.encodedLength ≤ w'.limit := by
        rw [h.limit_eq, h.position_eq]
        exact hle
      rw [bind_of_le hle, bind_of_le hle', h.position_eq]
      have hadvance : Window.advance g.dimension.encodedLength w = _ := Window.advance_of_le hle
      have hadvance' : Window.advance g.dimension.encodedLength w' = _ :=
        Window.advance_of_le hle'
      -- The numbers in the two headers may differ, but not whether they can be read.
      rcases h.readScalar (wordOf (w.position + g.blockLengthMember.offset))
        g.blockLengthMember.primitive
        with ⟨e, hlength, hlength'⟩ | ⟨length, length', hlength, hlength'⟩
      · rw [hlength, hlength']
        exact .inl ⟨e, rfl, rfl⟩
      rcases h.readScalar (wordOf (w.position + g.numInGroupMember.offset))
        g.numInGroupMember.primitive
        with ⟨e, hcount, hcount'⟩ | ⟨count, count', hcount, hcount'⟩
      · rw [hlength, hlength', hcount, hcount']
        exact .inl ⟨e, rfl, rfl⟩
      right
      simp only [hlength, hlength', hcount, hcount', Action.bind_apply, Action.lift_apply,
        Action.discard_apply, hadvance, hadvance', Except.map, Action.pure_apply]
      exact ⟨_, _, _, _, rfl, rfl, ⟨rfl, rfl, rfl, rfl, rfl⟩, h.moved _⟩
    · have hlt := Nat.lt_of_not_le hle
      have hlt' : w'.limit < w'.position + g.dimension.encodedLength := by
        rw [h.limit_eq, h.position_eq]
        exact hlt
      refine .inl ⟨_, bind_of_lt hlt f, ?_⟩
      rw [bind_of_lt hlt' f, Window.tooShort, Window.tooShort, h.limit_eq, h.position_eq]

end GroupView

theorem GroupView.SameHeader.counted_eq {g g' : GroupView} (h : g.SameHeader g') (count : Nat) :
    g'.counted count = g.counted count := by
  simp only [counted, h.field_eq, h.definition_eq, h.headerOffset_eq, h.index_eq, h.visible_eq]

namespace Iteration

def OverlaidWindows (a b : Bytes) (it it' : Iteration) : Prop :=
  Window.Overlaid a b it.window it'.window

theorem alike_resetCount_overlaid {it it' : Iteration} (hg : it.group.SameHeader it'.group)
    (h : OverlaidWindows a b it it') (count : Nat) :
    Alike (OverlaidWindows a b) (resetCount count) (resetCount count) it it' := by
  have hname : it'.group.name = it.group.name := congrArg Field.name hg.field_eq
  unfold resetCount
  apply Alike.get_bind
  dsimp only
  rw [hg.visible_eq, hg.index_eq, hg.definition_eq, hg.headerOffset_eq, hg.field_eq, hname,
    Window.Overlaid.version_eq h]
  apply Alike.guard h
  intro _
  apply Alike.guard h
  intro _
  apply Alike.guard h
  intro _
  apply Alike.bind
  · exact Alike.onPart (.bind (Window.alike_write_overlaid h _ _) fun _ _ _ ht =>
      Window.alike_write_overlaid ht _ _) fun _ _ ht => ht
  intro _ t t' ht
  exact .change ht

theorem overlaid_of_resetCount {it it' t t' : Iteration} (hg : it.group.SameHeader it'.group)
    {count : Nat} (hreset : resetCount count it = (.ok ⟨⟩, t))
    (hreset' : resetCount count it' = (.ok ⟨⟩, t')) (h : OverlaidWindows a b t t') :
    Overlaid a b t t' where
  group_eq := by
    rw [GroupView.group_of_resetCount hreset,
      GroupView.group_of_resetCount hreset', hg.counted_eq]
  window := h

end Iteration

theorem Iteration.alike_next_overlaid {it it' : Iteration} (h : Overlaid a b it it') :
    Alike (Overlaid a b) next next it it' := by
  unfold next
  apply Alike.get_bind
  dsimp only
  rw [h.group_eq]
  apply Alike.guard h
  intro _
  apply Alike.bind
  · exact Alike.onPart (Window.alike_advance_overlaid h.window _) fun _ _ ht => ⟨h.group_eq, ht⟩
  intro base t t' ht
  apply Alike.bind (.change ⟨rfl, ht.window⟩)
  intro _ u u' hu
  exact .pure hu _

end

end SimpleBinary
