import SimpleBinary.Field.Data
import SimpleBinary.Proofs.Group

namespace SimpleBinary

def DataOf.LengthInside {F : Type} (d : DataOf F) : Prop :=
  d.lengthMember.Inside d.headerLength

instance {F : Type} (d : DataOf F) : Decidable d.LengthInside :=
  inferInstanceAs (Decidable (_ ≤ _))

namespace DataView

variable {d : DataView} {w : Window} {header payload : Bytes}

theorem length_of_header (hv : d.visible = true) (hd : d.definition.LengthInside)
    (hh : w.read w.position d.headerLength = .ok header) :
    d.length w = .ok (d.definition.lengthMember.number header) := by
  simp only [length, hv, Bool.not_true, Bool.false_eq_true, if_false,
    Member.readScalar_of_header hh hd]
  rfl

structure Follows (d : DataView) (w : Window) (header payload : Bytes) : Prop where
  visible : d.visible = true
  inside : d.definition.LengthInside
  read_header : w.read w.position d.headerLength = .ok header
  read_payload : w.read (w.position + d.headerLength) payload.length = .ok payload
  length_eq : payload.length = d.definition.lengthMember.number header * d.elementSize
  length_le : payload.length ≤ Window.maxPosition

theorem Follows.payload_eq (h : d.Follows w header payload) :
    d.payload w = .ok (w.position + d.headerLength, payload.length) := by
  obtain ⟨hle, -⟩ := Window.read_eq_ok.mp h.read_payload
  have hmax : ¬ Window.maxPosition < payload.length := Nat.not_lt.mpr h.length_le
  have hstart : wordOf (w.position + d.headerLength) = _ := Window.wordOf_of_le (w := w) (by omega)
  simp only [DataView.payload, hstart, length_of_header h.visible h.inside h.read_header,
    Action.ok_bind, ← h.length_eq, if_neg hmax, Window.check_of_le hle, Action.discard_ok]
  rfl

theorem Follows.value_eq (h : d.Follows w header payload) :
    d.value w = (.ok payload, w.moved (d.headerLength + payload.length)) := by
  obtain ⟨hle, -⟩ := Window.read_eq_ok.mp h.read_payload
  have hread : (w.moved (d.headerLength + payload.length)).read (w.position + d.headerLength)
      payload.length = .ok payload := h.read_payload
  have hsize : wordOf (d.headerLength + payload.length) = _ :=
    Window.wordOf_of_le (w := w) (by omega)
  have hadvance : Window.advance (d.headerLength + payload.length) w = _ :=
    Window.advance_of_le (by omega)
  simp only [value, h.visible, Bool.not_true, Bool.false_eq_true, if_false, Action.bind_apply,
    Action.query_apply, h.payload_eq, Action.discard_apply, Action.get_apply, Action.lift_apply,
    hsize, hadvance, Except.map, hread]

theorem payload_eq_ok {start size : Nat} (h : d.payload w = .ok (start, size)) :
    ∃ count, d.length w = .ok count ∧ start = wordOf (w.position + d.headerLength) ∧
      size = count * d.elementSize ∧ size ≤ Window.maxPosition ∧ start + size ≤ w.limit := by
  obtain ⟨count, hcount, h⟩ := Action.except_bind_eq_ok h
  dsimp only at h
  split at h
  next => cases h
  next hmax =>
    obtain ⟨_, hcheck, h⟩ := Action.except_bind_eq_ok h
    cases h
    refine ⟨count, hcount, rfl, rfl, Nat.le_of_not_lt hmax, Nat.le_of_not_lt ?_⟩
    intro hlt
    rw [Window.check_of_lt hlt] at hcheck
    cases hcheck

def announced (d : DataView) (w : Window) : Nat :=
  let member := d.definition.lengthMember
  (member.primitive.decode
    (w.bytes.slice (wordOf (w.position + member.offset)) member.primitive.size)).toUInt64.toNat

def lengthStop (d : DataView) (w : Window) : Nat :=
  wordOf (w.position + d.definition.lengthMember.offset) + d.definition.lengthMember.primitive.size

theorem length_of_le (hv : d.visible = true) (h : d.lengthStop w ≤ w.limit) :
    d.length w = .ok (d.announced w) := by
  have hread := Window.readScalar_of_read (p := d.definition.lengthMember.primitive)
    (Window.read_of_le h)
  simp only [length, hv, Bool.not_true, Bool.false_eq_true, if_false, hread, Action.ok_bind]
  rfl

theorem length_of_lt (hv : d.visible = true) (h : w.limit < d.lengthStop w) :
    d.length w = .error (w.tooShort (d.lengthStop w)) := by
  have hread : w.readScalar (wordOf (w.position + d.definition.lengthMember.offset))
      d.definition.lengthMember.primitive = .error (w.tooShort (d.lengthStop w)) := by
    rw [Window.readScalar, Window.read_of_lt h]
    rfl
  simp only [length, hv, Bool.not_true, Bool.false_eq_true, if_false, hread]
  rfl

theorem payload_of_length_error {e : Error} (h : d.length w = .error e) :
    d.payload w = .error e := by
  unfold payload
  rw [h]
  rfl

theorem payload_of_le {count : Nat} (h : d.length w = .ok count)
    (hmax : count * d.elementSize ≤ Window.maxPosition)
    (hle : wordOf (w.position + d.headerLength) + count * d.elementSize ≤ w.limit) :
    d.payload w = .ok (wordOf (w.position + d.headerLength), count * d.elementSize) := by
  have hcheck : w.check (wordOf (w.position + d.headerLength)) (count * d.elementSize) = _ :=
    Window.check_of_le hle
  simp only [payload, h, Action.ok_bind, if_neg (Nat.not_lt.mpr hmax), hcheck, Action.discard_ok]
  rfl

theorem payload_of_over {count : Nat} (h : d.length w = .ok count)
    (hover : Window.maxPosition < count * d.elementSize) :
    d.payload w = .error (.bufferTooShort Window.maxPosition w.limit) := by
  simp only [payload, h, Action.ok_bind, if_pos hover]
  rfl

theorem payload_of_lt {count : Nat} (h : d.length w = .ok count)
    (hlt : w.limit < wordOf (w.position + d.headerLength) + count * d.elementSize) :
    d.payload w =
      .error (w.tooShort (wordOf (w.position + d.headerLength) + count * d.elementSize)) := by
  have hcheck : w.check (wordOf (w.position + d.headerLength)) (count * d.elementSize) = _ :=
    Window.check_of_lt hlt
  by_cases hover : Window.maxPosition < count * d.elementSize
  · have hmin : min (wordOf (w.position + d.headerLength) + count * d.elementSize)
        Window.maxPosition = Window.maxPosition := Nat.min_eq_right (by omega)
    rw [payload_of_over h hover, Window.tooShort, hmin]
  · simp only [payload, h, Action.ok_bind, if_neg hover, hcheck]
    rfl

theorem value_of_payload {start size : Nat} (hv : d.visible = true)
    (h : d.payload w = .ok (start, size)) :
    d.value w =
      ((Window.advance (wordOf (d.headerLength + size)) w).1.map fun _ => w.bytes.slice start size,
        (Window.advance (wordOf (d.headerLength + size)) w).2) := by
  obtain ⟨count, -, -, -, -, hle⟩ := payload_eq_ok h
  by_cases hstep : w.position + wordOf (d.headerLength + size) ≤ w.limit
  · have hread : (w.moved (wordOf (d.headerLength + size))).read start size = _ :=
      Window.read_of_le hle
    simp only [value, hv, Bool.not_true, Bool.false_eq_true, if_false, Action.bind_apply,
      Action.query_apply, h, Action.discard_apply, Action.get_apply, Action.lift_apply,
      Window.advance_of_le hstep, Except.map, hread, Window.moved_bytes]
  · simp only [value, hv, Bool.not_true, Bool.false_eq_true, if_false, Action.bind_apply,
      Action.query_apply, h, Action.discard_apply,
      Window.advance_of_lt (Nat.lt_of_not_le hstep), Except.map]

theorem eq_slice_of_value {start size : Nat} {bytes : Bytes} {w' : Window}
    (hv : d.visible = true) (hp : d.payload w = .ok (start, size))
    (h : d.value w = (.ok bytes, w')) : bytes = w.bytes.slice start size := by
  rw [value_of_payload hv hp] at h
  have hresult := congrArg Prod.fst h
  cases hstep : (Window.advance (wordOf (d.headerLength + size)) w).1 with
  | error e =>
    rw [hstep] at hresult
    cases hresult
  | ok place =>
    rw [hstep] at hresult
    cases hresult
    rfl

theorem skip_of_payload {count start size : Nat} (hv : d.visible = true)
    (hl : d.length w = .ok count) (h : d.payload w = .ok (start, size)) :
    d.skip w =
      ((Window.advance (wordOf (d.headerLength + size)) w).1.map fun _ => count,
        (Window.advance (wordOf (d.headerLength + size)) w).2) := by
  cases hstep : Window.advance (wordOf (d.headerLength + size)) w with
  | mk result after =>
    cases result <;>
      simp only [skip, hv, Bool.not_true, Bool.false_eq_true, if_false, Action.bind_apply,
        Action.query_apply, h, hl, Action.discard_apply, hstep, Except.map, Action.pure_apply]

theorem step_of_payload {start size : Nat} (h : d.payload w = .ok (start, size))
    (hword : w.position + d.headerLength < UInt64.size) :
    start = w.position + d.headerLength ∧
      Window.advance (wordOf (d.headerLength + size)) w =
        (.ok w.position, w.moved (d.headerLength + size)) := by
  obtain ⟨count, -, rfl, -, -, hle⟩ := payload_eq_ok h
  rw [wordOf_of_lt hword] at hle ⊢
  rw [Window.wordOf_of_le (w := w) (by omega)]
  exact ⟨rfl, Window.advance_of_le (by omega)⟩

theorem value_of_error {e : Error} (hv : d.visible = true)
    (h : d.payload w = .error e) : d.value w = (.error e, w) := by
  simp only [value, hv, Bool.not_true, Bool.false_eq_true, if_false, Action.bind_apply,
    Action.query_apply, h]

theorem skip_of_error {e : Error} (hv : d.visible = true)
    (h : d.payload w = .error e) : d.skip w = (.error e, w) := by
  cases hlength : d.length w with
  | error e' =>
    have he := payload_of_length_error hlength
    rw [h] at he
    cases he
    simp only [skip, hv, Bool.not_true, Bool.false_eq_true, if_false, Action.bind_apply,
      Action.query_apply, hlength]
  | ok count =>
    simp only [skip, hv, Bool.not_true, Bool.false_eq_true, if_false, Action.bind_apply,
      Action.query_apply, hlength, h]

theorem follows_of_value (hv : d.visible = true) (hd : d.definition.LengthInside) (hw : w.Sound)
    (hword : w.position + d.headerLength < UInt64.size) (h : (d.value w).1.isOk) :
    ∃ header payload, header.length = d.headerLength ∧ d.Follows w header payload := by
  cases hp : d.payload w with
  | error e =>
    simp only [value, hv, Bool.not_true, Bool.false_eq_true, if_false, Action.bind_apply,
      Action.query_apply, hp] at h
    cases h
  | ok place =>
    obtain ⟨count, hcount, hstart, hsize, hmax, hle⟩ := payload_eq_ok hp
    rw [hstart, wordOf_of_lt hword] at hle
    have hlimit := hw.limit_le
    have hheader : w.read w.position d.headerLength = _ := Window.read_of_le (by omega)
    have hpayload : (w.bytes.slice (w.position + d.headerLength) place.2).length = place.2 :=
      Bytes.length_slice (by omega)
    have hnumber := length_of_header hv hd hheader
    rw [hcount] at hnumber
    cases hnumber
    refine ⟨w.bytes.slice w.position d.headerLength,
      w.bytes.slice (w.position + d.headerLength) place.2,
      Bytes.length_slice (by omega), ?_⟩
    exact {
      visible := hv
      inside := hd
      read_header := hheader
      read_payload := by rw [hpayload]; exact Window.read_of_le (by omega)
      length_eq := hpayload.trans hsize
      length_le := by rw [hpayload]; exact hmax }

end DataView

end SimpleBinary
