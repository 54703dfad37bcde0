import SimpleBinary.Walk
import SimpleBinary.Proofs.Access
import SimpleBinary.Proofs.Codec

namespace SimpleBinary

namespace Member

def number (m : Member) (header : Bytes) : Nat :=
  (m.primitive.decode (header.slice m.offset m.primitive.size)).toUInt64.toNat

def Inside (m : Member) (length : Nat) : Prop :=
  m.offset + m.primitive.size ≤ length

instance (m : Member) (length : Nat) : Decidable (m.Inside length) :=
  inferInstanceAs (Decidable (_ ≤ _))

theorem readScalar_of_header {m : Member} {w : Window} {start length : Nat} {header : Bytes}
    (hh : w.read start length = .ok header) (hm : m.Inside length) :
    w.readScalar (wordOf (start + m.offset)) m.primitive =
      .ok (m.primitive.decode (header.slice m.offset m.primitive.size)) := by
  obtain ⟨hle, -⟩ := Window.read_eq_ok.mp hh
  unfold Inside at hm
  rw [Window.wordOf_of_le (w := w) (by omega)]
  exact Window.readScalar_of_read (Window.read_part hh hm)

theorem number_of_encode {m : Member} {header : Bytes} {n : Nat}
    (hu : m.primitive.isUnsigned) (hn : n ≤ m.primitive.rawMax)
    (hh : header.slice m.offset m.primitive.size =
      m.primitive.encode (.uint (UInt64.ofNat n))) : m.number header = n := by
  have hword : n < 2 ^ 64 := Nat.lt_of_le_of_lt hn m.primitive.rawMax_lt
  rw [number, hh, Primitive.decode_encode_uint hu hn, Scalar.toUInt64,
    UInt64.toNat_ofNat_of_lt' hword]

end Member

structure GroupOf.MembersInside {F : Type} (g : GroupOf F) : Prop where
  blockLength : g.blockLengthMember.Inside g.dimension.encodedLength
  numInGroup : g.numInGroupMember.Inside g.dimension.encodedLength

instance {F : Type} (g : GroupOf F) : Decidable g.MembersInside :=
  decidable_of_iff (_ ∧ _) ⟨fun h => ⟨h.1, h.2⟩, fun h => ⟨h.1, h.2⟩⟩

namespace GroupView

def entered (g : GroupView) (base : Nat) : GroupView :=
  { g with current := some base, index := g.index + 1 }

theorem bind_invisible (f : Field) (g : GroupDef) (w : Window) :
    bind f g false w = (.ok ⟨f, g, w.position, g.blockLength, 0, 0, none, false⟩, w) := rfl

theorem bind_of_invisible {visible : Bool} (hv : visible = false) (f : Field) (g : GroupDef)
    (w : Window) :
    bind f g visible w = (.ok ⟨f, g, w.position, g.blockLength, 0, 0, none, false⟩, w) := by
  rw [hv, bind_invisible]

theorem bind_of_header {g : GroupDef} {w : Window} {header : Bytes} (hg : g.MembersInside)
    (hh : w.read w.position g.dimension.encodedLength = .ok header) (f : Field) :
    bind f g true w =
      (.ok ⟨f, g, w.position, g.blockLengthMember.number header, g.numInGroupMember.number header,
        0, none, true⟩, w.moved g.dimension.encodedLength) := by
  obtain ⟨hle, -⟩ := Window.read_eq_ok.mp hh
  simp only [bind, Action.bind_apply, Action.get_apply, Bool.not_true, Bool.false_eq_true, if_false,
    Action.discard_apply, Action.lift_apply, Window.check_of_le hle, Except.map,
    Member.readScalar_of_header hh hg.blockLength, Member.readScalar_of_header hh hg.numInGroup,
    Window.advance_of_le hle, Action.pure_apply, Member.number]

theorem bind_of_lt {g : GroupDef} {w : Window}
    (h : w.limit < w.position + g.dimension.encodedLength) (f : Field) :
    bind f g true w = (.error (w.tooShort (w.position + g.dimension.encodedLength)), w) := by
  simp only [bind, Action.bind_apply, Action.get_apply, Bool.not_true, Bool.false_eq_true, if_false,
    Action.discard_apply, Action.lift_apply, Window.check_of_lt h, Except.map]

theorem bind_cases {f : Field} {g : GroupDef} {visible : Bool} {w w' : Window} {view : GroupView}
    (h : bind f g visible w = (.ok view, w')) :
    (visible = false ∧ view = ⟨f, g, w.position, g.blockLength, 0, 0, none, false⟩ ∧ w' = w) ∨
    (visible = true ∧ ∃ blockLength count : Scalar,
      w.readScalar (wordOf (w.position + g.blockLengthMember.offset))
        g.blockLengthMember.primitive = .ok blockLength ∧
      w.readScalar (wordOf (w.position + g.numInGroupMember.offset))
        g.numInGroupMember.primitive = .ok count ∧
      view = ⟨f, g, w.position, blockLength.toUInt64.toNat, count.toUInt64.toNat, 0, none, true⟩ ∧
      w.position + g.dimension.encodedLength ≤ w.limit ∧
      w' = w.moved g.dimension.encodedLength) := by
  cases visible with
  | false =>
    cases h
    exact .inl ⟨rfl, rfl, rfl⟩
  | true =>
    by_cases hle : w.position + g.dimension.encodedLength ≤ w.limit
    -- The steps in order: the check, both numbers, and the move over the header.
    · obtain ⟨v, w₁, hget, h⟩ := Action.bind_eq_ok h
      cases hget
      obtain ⟨_, w₂, hcheck, h⟩ := Action.bind_eq_ok h
      rw [Action.discard_apply, Action.lift_apply, Window.check_of_le hle] at hcheck
      cases hcheck
      obtain ⟨blockLength, w₃, hlength, h⟩ := Action.bind_eq_ok h
      obtain ⟨hlengthRead, rfl⟩ := Prod.mk.inj hlength
      obtain ⟨count, w₄, hcount, h⟩ := Action.bind_eq_ok h
      obtain ⟨hcountRead, rfl⟩ := Prod.mk.inj hcount
      obtain ⟨_, w₅, hadvance, h⟩ := Action.bind_eq_ok h
      rw [Action.discard_apply, Window.advance_of_le hle] at hadvance
      cases hadvance
      cases h
      exact .inr ⟨rfl, blockLength, count, hlengthRead, hcountRead, rfl, hle, rfl⟩
    · rw [bind_of_lt (Nat.lt_of_not_le hle) f] at h
      cases h

theorem bind_eq_ok {f : Field} {g : GroupDef} {visible : Bool} {w w' : Window} {view : GroupView}
    (h : bind f g visible w = (.ok view, w')) :
    view.index = 0 ∧ view.count ≤ Window.maxPosition ∧ view.current = none ∧
      view.headerOffset = w.position := by
  have hword (n : UInt64) : n.toNat ≤ Window.maxPosition := Nat.le_of_lt_succ n.toNat_lt
  rcases bind_cases h with ⟨-, rfl, -⟩ | ⟨-, _, _, -, -, rfl, -⟩
  · exact ⟨rfl, Nat.zero_le _, rfl, rfl⟩
  · exact ⟨rfl, hword _, rfl, rfl⟩

theorem ofBinding_eq_ok {b : Binding} {w w' : Window} {view : GroupView}
    (h : ofBinding b w = (.ok view, w')) :
    ∃ g, b.field.kind = .group g ∧ bind b.field g b.visible w = (.ok view, w') := by
  unfold ofBinding at h
  cases hk : b.field.kind with
  | group g =>
    rw [hk] at h
    exact ⟨g, rfl, h⟩
  | _ =>
    rw [hk] at h
    cases h

theorem definition_of_bind {f : Field} {g : GroupDef} {visible : Bool} {w w' : Window}
    {view : GroupView} (h : bind f g visible w = (.ok view, w')) : view.definition = g := by
  rcases bind_cases h with ⟨-, rfl, -⟩ | ⟨-, _, _, -, -, rfl, -⟩
  · rfl
  · rfl

end GroupView

namespace Iteration

theorem next_of_le {g : GroupView} {w : Window} (hi : g.index < g.count)
    (h : w.position + g.blockLength ≤ w.limit) :
    next ⟨g, w⟩ = (.ok w.position, ⟨g.entered w.position, w.moved g.blockLength⟩) := by
  have hn : g.hasNext = true := decide_eq_true hi
  simp only [next, Action.bind_apply, Action.get_apply, hn, Bool.not_true, Bool.false_eq_true,
    if_false, onWindow, Action.onPart_apply, Window.advance_of_le h, Action.modify_apply,
    Action.pure_apply, GroupView.entered]

theorem next_of_lt {g : GroupView} {w : Window} (hi : g.index < g.count)
    (h : w.limit < w.position + g.blockLength) :
    next ⟨g, w⟩ = (.error (w.tooShort (w.position + g.blockLength)), ⟨g, w⟩) := by
  have hn : g.hasNext = true := decide_eq_true hi
  simp only [next, Action.bind_apply, Action.get_apply, hn, Bool.not_true, Bool.false_eq_true,
    if_false, onWindow, Action.onPart_apply, Window.advance_of_lt h]

theorem next_of_done {g : GroupView} {w : Window} (h : g.count ≤ g.index) :
    next ⟨g, w⟩ = (.error (.groupCountExceeded g.name g.count), ⟨g, w⟩) := by
  have hn : g.hasNext = false := decide_eq_false (Nat.not_lt.mpr h)
  simp only [next, Action.bind_apply, Action.get_apply, hn, Bool.not_false, if_true,
    Action.throw_apply]

theorem next_eq_ok {g : GroupView} {w : Window} {base : Nat} {it : Iteration}
    (h : next ⟨g, w⟩ = (.ok base, it)) :
    g.index < g.count ∧ it = ⟨g.entered base, w.moved g.blockLength⟩ := by
  by_cases hi : g.index < g.count
  · by_cases hle : w.position + g.blockLength ≤ w.limit
    · rw [next_of_le hi hle] at h
      cases h
      exact ⟨hi, rfl⟩
    · rw [next_of_lt hi (Nat.lt_of_not_le hle)] at h
      cases h
  · rw [next_of_done (Nat.le_of_not_lt hi)] at h
    cases h

section

variable {visit : Nat → Action Window Unit} {n : Nat} {g : GroupView} {w : Window}

theorem run_repeatNext_of_le (hi : g.index < g.count) (h : w.position + g.blockLength ≤ w.limit) :
    run g (repeatNext visit (n + 1)) w =
      (visit w.position >>= fun _ => run (g.entered w.position) (repeatNext visit n))
        (w.moved g.blockLength) := by
  cases hvisit : visit w.position (w.moved g.blockLength) with
  | mk result v =>
    cases result with
    | ok a =>
      rw [Action.bind_of_ok hvisit]
      simp only [run, repeatNext, Action.bind_apply, next_of_le hi h, onWindow, Action.onPart_apply,
        hvisit]
    | error e =>
      rw [Action.bind_of_error hvisit]
      simp only [run, repeatNext, Action.bind_apply, next_of_le hi h, onWindow, Action.onPart_apply,
        hvisit]

theorem run_repeatNext_of_lt (hi : g.index < g.count) (h : w.limit < w.position + g.blockLength) :
    run g (repeatNext visit (n + 1)) w = (.error (w.tooShort (w.position + g.blockLength)), w) := by
  simp only [run, repeatNext, Action.bind_apply, next_of_lt hi h]

theorem run_repeatNext_succ (hi : g.index < g.count) :
    run g (repeatNext visit (n + 1)) = (do
      let base ← Window.advance g.blockLength
      visit base
      run (g.entered base) (repeatNext visit n)) := by
  funext w
  by_cases hle : w.position + g.blockLength ≤ w.limit
  · rw [run_repeatNext_of_le hi hle, Action.bind_of_ok (Window.advance_of_le hle)]
  · have hlt := Nat.lt_of_not_le hle
    rw [run_repeatNext_of_lt hi hlt, Action.bind_of_error (Window.advance_of_lt hlt)]

end

end Iteration

namespace Walk

variable {read : Nat → StateM Window (List Reading)} {n : Nat} {it it' : Iteration}

theorem elements_of_ok {base : Nat} (h : Iteration.next it = (.ok base, it')) :
    elements read (n + 1) it =
      (.ok (read base it'.window).1 ::
        (elements read n { it' with window := (read base it'.window).2 }).1,
      (elements read n { it' with window := (read base it'.window).2 }).2) := by
  have hn : (Iteration.next.run : StateM Iteration _) it = _ := h
  simp only [elements, bind, StateT.bind, hn, get, getThe, MonadStateOf.get, StateT.get, set, pure]
  rfl

theorem elements_of_error {reason : Error} (h : Iteration.next it = (.error reason, it')) :
    elements read (n + 1) it = ([.error reason], it') := by
  have hn : (Iteration.next.run : StateM Iteration _) it = _ := h
  simp only [elements, bind, StateT.bind, hn]
  rfl

variable {g : GroupView} {w : Window}

theorem elements_succ_of_le (hi : g.index < g.count) (h : w.position + g.blockLength ≤ w.limit) :
    elements read (n + 1) ⟨g, w⟩ =
      (.ok (read w.position (w.moved g.blockLength)).1 ::
        (elements read n ⟨g.entered w.position, (read w.position (w.moved g.blockLength)).2⟩).1,
      (elements read n ⟨g.entered w.position, (read w.position (w.moved g.blockLength)).2⟩).2) :=
  elements_of_ok (Iteration.next_of_le hi h)

theorem elements_succ_of_lt (hi : g.index < g.count) (h : w.limit < w.position + g.blockLength) :
    elements read (n + 1) ⟨g, w⟩ =
      ([.error (w.tooShort (w.position + g.blockLength))], ⟨g, w⟩) :=
  elements_of_error (Iteration.next_of_lt hi h)

end Walk

end SimpleBinary
