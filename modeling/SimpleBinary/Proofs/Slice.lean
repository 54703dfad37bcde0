import SimpleBinary.Bytes

namespace SimpleBinary.Bytes

def Apart (start size start' size' : Nat) : Prop :=
  size = 0 ∨ size' = 0 ∨ start + size ≤ start' ∨ start' + size' ≤ start

instance (start size start' size' : Nat) : Decidable (Apart start size start' size') :=
  inferInstanceAs (Decidable (_ ∨ _ ∨ _ ∨ _))

theorem Apart.symm {start size start' size' : Nat} (h : Apart start size start' size') :
    Apart start' size' start size := by
  unfold Apart at *
  omega

theorem Apart.part {start size start' size' : Nat} (h : Apart start size start' size')
    {start₁ size₁ : Nat} (hl : start' ≤ start₁) (hr : start₁ + size₁ ≤ start' + size') :
    Apart start size start₁ size₁ := by
  unfold Apart at *
  omega

theorem getElem?_slice (bytes : Bytes) (start size i : Nat) :
    (slice bytes start size)[i]? = if i < size then bytes[start + i]? else none := by
  unfold slice
  rw [List.getElem?_take, List.getElem?_drop]

theorem getElem?_overwrite {bytes part : Bytes} {start : Nat}
    (h : start + part.length ≤ bytes.length) (i : Nat) :
    (overwrite bytes start part)[i]? =
      if i < start ∨ start + part.length ≤ i then bytes[i]? else part[i - start]? := by
  have hl : (bytes.take start).length = start := by simp; omega
  unfold overwrite
  rw [List.append_assoc]
  by_cases hi : i < start
  · rw [if_pos (Or.inl hi), List.getElem?_append_left (by omega), List.getElem?_take, if_pos hi]
  · rw [List.getElem?_append_right (by omega), hl]
    by_cases hj : start + part.length ≤ i
    · rw [if_pos (Or.inr hj), List.getElem?_append_right (by omega), List.getElem?_drop]
      congr 1
      omega
    · rw [if_neg (by omega), List.getElem?_append_left (by omega)]

theorem length_slice {bytes : Bytes} {start size : Nat} (h : start + size ≤ bytes.length) :
    (slice bytes start size).length = size := by
  simp only [slice, List.length_take, List.length_drop]
  omega

theorem slice_slice (bytes : Bytes) {start size start' size' : Nat} (h : start' + size' ≤ size) :
    slice (slice bytes start size) start' size' = slice bytes (start + start') size' := by
  apply List.ext_getElem?
  intro i
  rw [getElem?_slice, getElem?_slice, getElem?_slice]
  by_cases hi : i < size'
  · rw [if_pos hi, if_pos hi, if_pos (by omega), Nat.add_assoc]
  · rw [if_neg hi, if_neg hi]

theorem slice_eq_of_slice_eq {bytes bytes' : Bytes} {start size : Nat}
    (h : slice bytes start size = slice bytes' start size) {start' size' : Nat}
    (hl : start ≤ start') (hr : start' + size' ≤ start + size) :
    slice bytes start' size' = slice bytes' start' size' := by
  have hpart : start' - start + size' ≤ size := by omega
  have hs : start + (start' - start) = start' := by omega
  rw [← hs, ← slice_slice bytes hpart, h, slice_slice bytes' hpart]

theorem slice_self {bytes : Bytes} {size : Nat} (h : bytes.length ≤ size) :
    slice bytes 0 size = bytes := by
  unfold slice
  rw [List.drop_zero, List.take_of_length_le h]

theorem slice_append_left {front rest : Bytes} {start size : Nat}
    (h : start + size ≤ front.length) :
    slice (front ++ rest) start size = slice front start size := by
  unfold slice
  rw [List.drop_append_of_le_length (by omega),
    List.take_append_of_le_length (by rw [List.length_drop]; omega)]

theorem slice_append_right {front rest : Bytes} {start size : Nat} (h : front.length ≤ start) :
    slice (front ++ rest) start size = slice rest (start - front.length) size := by
  unfold slice
  rw [List.drop_append, List.drop_eq_nil_of_le h, List.nil_append]

theorem slice_add (bytes : Bytes) (start size size' : Nat) :
    slice bytes start (size + size') =
      slice bytes start size ++ slice bytes (start + size) size' := by
  unfold slice
  rw [List.take_add, List.drop_drop]

theorem slice_overwrite_apart {bytes part : Bytes} {start start' size : Nat}
    (h : start + part.length ≤ bytes.length) (ha : Apart start part.length start' size) :
    slice (overwrite bytes start part) start' size = slice bytes start' size := by
  apply List.ext_getElem?
  intro i
  rw [getElem?_slice, getElem?_slice]
  by_cases hi : i < size
  · rw [if_pos hi, if_pos hi, getElem?_overwrite h]
    unfold Apart at ha
    by_cases hp : part.length = 0
    · rw [if_pos (by omega)]
    · rw [if_pos (by omega)]
  · rw [if_neg hi, if_neg hi]

theorem slice_overwrite_within {bytes part : Bytes} {start size start' : Nat}
    (h : start' + part.length ≤ size) (hl : start + size ≤ bytes.length) :
    slice (overwrite bytes (start + start') part) start size =
      overwrite (slice bytes start size) start' part := by
  have hslice : (slice bytes start size).length = size := length_slice hl
  apply List.ext_getElem?
  intro i
  rw [getElem?_slice, getElem?_overwrite (by omega), getElem?_overwrite (by omega), getElem?_slice]
  by_cases hi : i < size
  · rw [if_pos hi, if_pos hi]
    by_cases hout : i < start' ∨ start' + part.length ≤ i
    · rw [if_pos hout, if_pos (by omega)]
    · rw [if_neg hout, if_neg (by omega)]
      congr 1
      omega
  · rw [if_neg hi, if_neg hi, if_pos (by omega)]

theorem overwrite_nil (bytes : Bytes) (start : Nat) : overwrite bytes start [] = bytes := by
  rw [overwrite, List.append_nil, List.length_nil, Nat.add_zero, List.take_append_drop]

theorem overwrite_slice {bytes : Bytes} {start size : Nat} (h : start + size ≤ bytes.length) :
    bytes.overwrite start (bytes.slice start size) = bytes := by
  have hlength := length_slice h
  apply List.ext_getElem?
  intro i
  rw [getElem?_overwrite (by rwa [hlength]), hlength]
  by_cases hi : i < start ∨ start + size ≤ i
  · rw [if_pos hi]
  · rw [if_neg hi, getElem?_slice, if_pos (by omega)]
    congr 1
    omega

theorem overwrite_overwrite_within {bytes part piece : Bytes} {start start' : Nat}
    (h : start + part.length ≤ bytes.length) (h' : start' + piece.length ≤ part.length) :
    (bytes.overwrite start part).overwrite (start + start') piece =
      bytes.overwrite start (part.overwrite start' piece) := by
  have hlength := length_overwrite h
  have hlength' := length_overwrite h'
  apply List.ext_getElem?
  intro i
  rw [getElem?_overwrite (by omega), getElem?_overwrite h, getElem?_overwrite (by omega), hlength']
  by_cases hpart : i < start ∨ start + part.length ≤ i
  · rw [if_pos hpart, if_pos hpart, if_pos (by omega)]
  · rw [if_neg hpart, if_neg hpart, getElem?_overwrite h']
    by_cases hpiece : i < start + start' ∨ start + start' + piece.length ≤ i
    · rw [if_pos hpiece, if_pos (by omega)]
    · rw [if_neg hpiece, if_neg (by omega)]
      congr 1
      omega

end SimpleBinary.Bytes
