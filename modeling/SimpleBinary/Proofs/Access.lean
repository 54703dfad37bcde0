import SimpleBinary.Proofs.Action
import SimpleBinary.Proofs.Slice

namespace SimpleBinary.Window

structure Sound (w : Window) : Prop where
  position_le : w.position ≤ w.limit
  limit_le : w.limit ≤ w.bytes.length

def moved (w : Window) (size : Nat) : Window :=
  { w with position := w.position + size }

@[simp] theorem moved_bytes (w : Window) (size : Nat) : (w.moved size).bytes = w.bytes := rfl

@[simp] theorem moved_limit (w : Window) (size : Nat) : (w.moved size).limit = w.limit := rfl

@[simp] theorem moved_position (w : Window) (size : Nat) :
    (w.moved size).position = w.position + size := rfl

@[simp] theorem moved_version (w : Window) (size : Nat) : (w.moved size).version = w.version := rfl

@[simp] theorem moved_zero (w : Window) : w.moved 0 = w := rfl

theorem moved_moved (w : Window) (size size' : Nat) :
    (w.moved size).moved size' = w.moved (size + size') := by
  simp only [moved, Nat.add_assoc]

theorem Sound.moved {w : Window} (h : w.Sound) {size : Nat} (hs : w.position + size ≤ w.limit) :
    (w.moved size).Sound := ⟨hs, h.limit_le⟩

def tooShort (w : Window) (stop : Nat) : Error :=
  .bufferTooShort (min stop maxPosition) w.limit

theorem wordOf_of_le_max {n : Nat} (h : n ≤ maxPosition) : wordOf n = n :=
  wordOf_of_lt (Nat.lt_of_le_pred (by decide) h)

theorem lt_of_le_limit (w : Window) {n : Nat} (h : n ≤ w.limit) : n < UInt64.size :=
  Nat.lt_of_le_pred (by decide) (Nat.le_trans h w.limit_le_max)

theorem wordOf_of_le {w : Window} {n : Nat} (h : n ≤ w.limit) : wordOf n = n :=
  wordOf_of_lt (w.lt_of_le_limit h)

theorem check_of_le {w : Window} {start size : Nat} (h : start + size ≤ w.limit) :
    w.check start size = .ok (start + size) :=
  if_pos h

theorem check_of_lt {w : Window} {start size : Nat} (h : w.limit < start + size) :
    w.check start size = .error (w.tooShort (start + size)) :=
  if_neg (Nat.not_le.mpr h)

theorem check_eq_ok {w : Window} {start size stop : Nat} :
    w.check start size = .ok stop ↔ start + size ≤ w.limit ∧ stop = start + size := by
  unfold check
  split
  next h => simp [h, eq_comm]
  next h => simp [h]

theorem read_of_le {w : Window} {start size : Nat} (h : start + size ≤ w.limit) :
    w.read start size = .ok (w.bytes.slice start size) := by
  rw [read, check_of_le h]
  rfl

theorem read_of_lt {w : Window} {start size : Nat} (h : w.limit < start + size) :
    w.read start size = .error (w.tooShort (start + size)) := by
  rw [read, check_of_lt h]
  rfl

theorem read_eq_ok {w : Window} {start size : Nat} {part : Bytes} :
    w.read start size = .ok part ↔ start + size ≤ w.limit ∧ w.bytes.slice start size = part := by
  by_cases h : start + size ≤ w.limit
  · simp [read_of_le h, h]
  · simp [read_of_lt (Nat.lt_of_not_le h), h]

theorem length_of_read {w : Window} {start size : Nat} {part : Bytes}
    (hw : w.limit ≤ w.bytes.length) (h : w.read start size = .ok part) : part.length = size := by
  obtain ⟨hle, rfl⟩ := read_eq_ok.mp h
  exact Bytes.length_slice (Nat.le_trans hle hw)

theorem wordOf_of_read {w : Window} {start size : Nat} {part : Bytes}
    (h : w.read start size = .ok part) : wordOf size = size :=
  wordOf_of_le (w := w) (Nat.le_of_add_left_le (read_eq_ok.mp h).1)

theorem read_part {w : Window} {start size : Nat} {part : Bytes} (h : w.read start size = .ok part)
    {start' size' : Nat} (h' : start' + size' ≤ size) :
    w.read (start + start') size' = .ok (part.slice start' size') := by
  obtain ⟨hl, rfl⟩ := read_eq_ok.mp h
  rw [read_of_le (by omega), Bytes.slice_slice _ h']

theorem readScalar_of_read {w : Window} {start : Nat} {p : Primitive} {part : Bytes}
    (h : w.read start p.size = .ok part) : w.readScalar start p = .ok (p.decode part) := by
  rw [readScalar, h]
  rfl

theorem le_of_readScalar {w : Window} {start : Nat} {p : Primitive} {value : Scalar}
    (h : w.readScalar start p = .ok value) : start + p.size ≤ w.limit := by
  apply Nat.le_of_not_lt
  intro hlt
  rw [readScalar, read_of_lt hlt] at h
  cases h

theorem advance_of_le {w : Window} {size : Nat} (h : w.position + size ≤ w.limit) :
    advance size w = (.ok w.position, w.moved size) := by
  simp only [advance, Action.bind_apply, Action.get_apply, Action.lift_apply, check_of_le h,
    Action.set_apply, Action.pure_apply, moved]

theorem advance_of_lt {w : Window} {size : Nat} (h : w.limit < w.position + size) :
    advance size w = (.error (w.tooShort (w.position + size)), w) := by
  simp only [advance, Action.bind_apply, Action.get_apply, Action.lift_apply, check_of_lt h]

theorem advance_eq_ok {w w' : Window} {size start : Nat} :
    advance size w = (.ok start, w') ↔
      w.position + size ≤ w.limit ∧ start = w.position ∧ w' = w.moved size := by
  constructor
  · intro h
    by_cases hle : w.position + size ≤ w.limit
    · rw [advance_of_le hle] at h
      cases h
      exact ⟨hle, rfl, rfl⟩
    · rw [advance_of_lt (Nat.lt_of_not_le hle)] at h
      cases h
  · rintro ⟨hle, rfl, rfl⟩
    exact advance_of_le hle

theorem seek_of_le {w : Window} {position : Nat} (h : position ≤ w.limit) :
    seek position w = (.ok ⟨⟩, { w with position }) := by
  have hcheck : w.check position 0 = .ok position := check_of_le h
  simp only [seek, Action.bind_apply, Action.get_apply, Action.lift_apply, hcheck,
    Action.set_apply]

theorem seek_of_lt {w : Window} {position : Nat} (h : w.limit < position) :
    seek position w = (.error (w.tooShort position), w) := by
  have hcheck : w.check position 0 = .error (w.tooShort position) := check_of_lt h
  simp only [seek, Action.bind_apply, Action.get_apply, Action.lift_apply, hcheck]

def written (w : Window) (start : Nat) (part : Bytes) : Window :=
  { w with bytes := w.bytes.overwrite start part }

@[simp] theorem written_bytes (w : Window) (start : Nat) (part : Bytes) :
    (w.written start part).bytes = w.bytes.overwrite start part := rfl

@[simp] theorem written_limit (w : Window) (start : Nat) (part : Bytes) :
    (w.written start part).limit = w.limit := rfl

@[simp] theorem written_position (w : Window) (start : Nat) (part : Bytes) :
    (w.written start part).position = w.position := rfl

theorem write_of_le {w : Window} {start : Nat} {part : Bytes}
    (h : start + part.length ≤ w.limit) : write start part w = (.ok ⟨⟩, w.written start part) := by
  simp only [write, Action.bind_apply, Action.get_apply, Action.discard_apply, Action.lift_apply,
    check_of_le h, Except.map, Action.set_apply, written]

theorem write_of_lt {w : Window} {start : Nat} {part : Bytes}
    (h : w.limit < start + part.length) :
    write start part w = (.error (w.tooShort (start + part.length)), w) := by
  simp only [write, Action.bind_apply, Action.get_apply, Action.discard_apply, Action.lift_apply,
    check_of_lt h, Except.map]

theorem write_eq_ok {w v : Window} {start : Nat} {part : Bytes}
    (h : write start part w = (.ok ⟨⟩, v)) :
    start + part.length ≤ w.limit ∧ v = w.written start part := by
  by_cases hle : start + part.length ≤ w.limit
  · rw [write_of_le hle] at h
    cases h
    exact ⟨hle, rfl⟩
  · rw [write_of_lt (Nat.lt_of_not_le hle)] at h
    cases h

theorem write_ok_iff {w : Window} {start : Nat} {part : Bytes} :
    (write start part w).1 = .ok ⟨⟩ ↔ start + part.length ≤ w.limit := by
  constructor
  · intro h
    exact (write_eq_ok (Prod.ext h rfl)).1
  · intro hle
    rw [write_of_le hle]

theorem read_of_write {w v : Window} (hw : w.limit ≤ w.bytes.length) {start : Nat} {part : Bytes}
    (h : write start part w = (.ok ⟨⟩, v)) : v.read start part.length = .ok part := by
  obtain ⟨hle, rfl⟩ := write_eq_ok h
  have hstart : start ≤ w.bytes.length :=
    Nat.le_trans (Nat.le_add_right _ _) (Nat.le_trans hle hw)
  rw [read_of_le (w := w.written start part) hle, written_bytes, Bytes.slice_overwrite hstart]

theorem open?_of_le {bytes : Bytes} {limit : Nat} (h : limit ≤ bytes.length)
    (hmax : limit ≤ maxPosition) (position : Nat) (version : UInt16) :
    open? bytes limit position version =
      if limit < position then .error (.bufferTooShort position limit)
      else .ok ⟨bytes, limit, position, version, hmax⟩ :=
  dif_neg (Nat.not_lt.mpr (Nat.le_min.mpr ⟨h, hmax⟩))

theorem open?_of_over {bytes : Bytes} {limit : Nat} (h : limit ≤ bytes.length)
    (hmax : maxPosition < limit) (position : Nat) (version : UInt16) :
    open? bytes limit position version = .error (.bufferTooShort limit maxPosition) := by
  have hmin : min bytes.length maxPosition = maxPosition := Nat.min_eq_right (by omega)
  rw [open?, dif_pos (by omega), hmin]

theorem open?_eq_ok {bytes : Bytes} {limit position : Nat} {version : UInt16} {w : Window} :
    open? bytes limit position version = .ok w ↔
      limit ≤ bytes.length ∧ position ≤ limit ∧
        ∃ hmax, w = ⟨bytes, limit, position, version, hmax⟩ := by
  unfold open?
  split
  next h =>
    refine ⟨nofun, ?_⟩
    rintro ⟨hle, -, hmax, -⟩
    omega
  next h =>
    have hmax : limit ≤ maxPosition := by omega
    by_cases h' : limit < position
    · simp [h', Nat.not_le.mpr h']
    · simp [h', Nat.le_of_not_lt h', show limit ≤ bytes.length by omega, hmax, eq_comm]

structure Carries (v : Window) (bytes : Bytes) (start size : Nat) : Prop where
  le : start + size ≤ v.limit
  slice_eq : v.bytes.slice start size = bytes.slice start size

namespace Carries

variable {v : Window} {bytes bytes' : Bytes} {start size : Nat}

theorem read (h : v.Carries bytes start size) :
    v.read start size = .ok (bytes.slice start size) := by
  rw [read_of_le h.le, h.slice_eq]

theorem part (h : v.Carries bytes start size) {start' size' : Nat} (hl : start ≤ start')
    (hr : start' + size' ≤ start + size) : v.Carries bytes start' size' :=
  ⟨Nat.le_trans hr h.le, Bytes.slice_eq_of_slice_eq h.slice_eq hl hr⟩

theorem moved (h : v.Carries bytes start size) (length : Nat) :
    (v.moved length).Carries bytes start size :=
  ⟨h.le, h.slice_eq⟩

theorem of_slice_eq (h : v.Carries bytes start size)
    (hb : bytes.slice start size = bytes'.slice start size) : v.Carries bytes' start size :=
  ⟨h.le, h.slice_eq.trans hb⟩

end Carries

end SimpleBinary.Window
