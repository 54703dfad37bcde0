import Mathlib.Algebra.BigOperators.Intervals
import Mathlib.Data.Finset.Sort
import SimpleBinary.Proofs.Action
import SimpleBinary.Proofs.Bits

namespace SimpleBinary.BitSet

open scoped Power

inductive Command where
  | insert (bit : Nat)
  | erase (bit : Nat)
  | update (bit : Nat) (on : Bool)
  | assign (bit : Nat) (on : Bool)
  | clear
  | decode (bytes : Bytes) (encoding : Primitive) (integral : encoding.isFloat = false)

def Command.run : Command → BitSet → Except Error BitSet
  | insert bit, s => s.insert? bit
  | erase bit, s => s.erase? bit
  | update bit on, s => s.with? bit on
  | assign bit on, s => .ok (s.assign bit on)
  | clear, s => .ok s.clear
  | decode bytes encoding _, _ => (read bytes encoding).map Prod.fst

def next (s : BitSet) (command : Command) : BitSet :=
  match command.run s with
  | .ok s' => s'
  | .error _ => s

structure Numbers where
  encoding : Primitive
  members : Finset Nat

namespace Numbers

def put (n : Numbers) (bit : Nat) (on : Bool) : Numbers :=
  if bit < n.encoding.width then
    { n with members := if on then insert bit n.members else n.members.erase bit }
  else n

def next (n : Numbers) : Command → Numbers
  | .insert bit => n.put bit true
  | .erase bit => n.put bit false
  | .update bit on => n.put bit on
  | .assign bit on => n.put bit on
  | .clear => { n with members := ∅ }
  | .decode bytes encoding _ =>
    if encoding.size ≤ bytes.length then
      ⟨encoding, {bit ∈ Finset.range encoding.width | bytes.bit bit}⟩
    else n

def refusalAt (n : Numbers) (bit : Nat) : Option Error :=
  if bit < n.encoding.width then none else some (.bitOutOfRange bit n.encoding.width)

def refusal? (n : Numbers) : Command → Option Error
  | .insert bit => n.refusalAt bit
  | .erase bit => n.refusalAt bit
  | .update bit _ => n.refusalAt bit
  | .assign _ _ => none
  | .clear => none
  | .decode bytes encoding _ =>
    if encoding.size ≤ bytes.length then none
    else some (.bufferTooShort encoding.size bytes.length)

end Numbers

/-- The relation between a set and its numbers that every command keeps. -/
structure Holds (s : BitSet) (n : Numbers) : Prop where
  encoding : s.encoding = n.encoding
  integral : s.encoding.isFloat = false
  contains : ∀ bit, s.contains bit = true ↔ bit ∈ n.members

structure Written (s : BitSet) (bytes bytes' : Bytes) : Prop where
  write : s.write bytes = (.ok s.encoding.size, bytes')
  length : bytes'.length = bytes.length
  behind : bytes'.drop s.encoding.size = bytes.drop s.encoding.size
  read : BitSet.read bytes' s.encoding = .ok (s, s.encoding.size)

structure Answers (s : BitSet) (n : Numbers) : Prop where
  encoding : s.encoding = n.encoding
  below : ∀ bit, s.width ≤ bit → s.bits.testBit bit = false
  contains : ∀ bit, s.contains bit = true ↔ bit ∈ n.members
  size : s.size = n.members.card
  toList : s.toList = n.members.sort
  isEmpty : s.isEmpty = true ↔ n.members = ∅
  accepted : ∀ command, n.refusal? command = none → command.run s = .ok (s.next command)
  refused : ∀ command e, n.refusal? command = some e →
    command.run s = .error e ∧ s.next command = s
  ignored : ∀ bit on, s.width ≤ bit → s.assign bit on = s
  written : ∀ bytes, s.encoding.size ≤ bytes.length → ∃ bytes', s.Written bytes bytes'
  unwritten : ∀ bytes, bytes.length < s.encoding.size →
    s.write bytes = (.error (.bufferTooShort s.encoding.size bytes.length), bytes)

theorem ones_eq_sum (width bits : Nat) :
    ones width bits = ∑ bit ∈ Finset.range width, if bits.testBit bit then 1 else 0 := by
  induction width generalizing bits with
  | zero => rfl
  | succ width ih =>
    have hlowest : (if bits.testBit 0 then 1 else 0) = bits % 2 := by
      rw [Nat.testBit_zero]
      rcases Nat.mod_two_eq_zero_or_one bits with h | h
      · rw [h]; rfl
      · rw [h]; rfl
    rw [ones, ih, Finset.sum_range_succ', hlowest, Nat.add_comm]
    simp only [Nat.testBit_succ]

section

variable {s : BitSet} {n : Numbers}

theorem size_eq_card (h : s.Holds n) : s.size = n.members.card := by
  rw [size, ones_eq_sum, ← Finset.card_filter]
  congr 1
  ext bit
  rw [Finset.mem_filter, Finset.mem_range, ← h.contains bit]
  constructor
  · exact fun hbit => hbit.2
  · intro hbit
    exact ⟨Nat.lt_of_lt_of_le (lt_of_contains hbit) s.encoding.width_le, hbit⟩

theorem toList_eq_sort (h : s.Holds n) : s.toList = n.members.sort := by
  have hascending : s.toList.Pairwise (· < ·) := List.pairwise_lt_range.filter _
  have hnodup : s.toList.Nodup := hascending.imp Nat.ne_of_lt
  have hsame : s.toList.toFinset = n.members := by
    ext bit
    rw [List.mem_toFinset, mem_toList, h.contains]
  rw [← hsame, (List.toFinset_sort (· ≤ ·) hnodup).mpr (hascending.imp Nat.le_of_lt)]

theorem isEmpty_iff (h : s.Holds n) : s.isEmpty = true ↔ n.members = ∅ := by
  rw [isEmpty, beq_iff_eq, Finset.eq_empty_iff_forall_notMem]
  constructor
  · intro hzero bit hbit
    rw [← h.contains, contains, hzero, Nat.zero_testBit] at hbit
    cases hbit
  · intro hnone
    apply Nat.eq_of_testBit_eq
    intro bit
    rw [Nat.zero_testBit, ← Bool.not_eq_true]
    exact fun hbit => hnone bit ((h.contains bit).mp hbit)

theorem exists_written (hs : s.encoding.isFloat = false) {bytes : Bytes}
    (hbytes : s.encoding.size ≤ bytes.length) : ∃ bytes', s.Written bytes bytes' := by
  have hpart : 0 + s.toBytes.length ≤ bytes.length := by
    rwa [length_toBytes, Nat.zero_add]
  have hlength := Bytes.length_overwrite hpart
  have hwritten : bytes.overwrite 0 s.toBytes = s.toBytes ++ bytes.drop s.encoding.size := by
    rw [Bytes.overwrite, List.take_zero, List.nil_append, Nat.zero_add, length_toBytes]
  refine ⟨bytes.overwrite 0 s.toBytes, ?_, hlength, ?_, ?_⟩
  · simp only [write, Action.bind_apply, Action.get_apply, Nat.not_lt.mpr hbytes, if_false,
      Action.pure_apply, Action.set_apply]
  · rw [hwritten, List.drop_left' (length_toBytes s)]
  · have hprefix : ofBytes (bytes.overwrite 0 s.toBytes) s.encoding =
        ofBytes s.toBytes s.encoding := by
      rw [ofBytes, ofBytes, Primitive.decode, Primitive.decode, hwritten,
        List.take_left' (length_toBytes s), List.take_of_length_le (length_toBytes s).le]
    rw [read, hlength, if_neg (Nat.not_lt.mpr hbytes), hprefix, ofBytes_toBytes hs]

theorem write_of_lt {bytes : Bytes} (h : bytes.length < s.encoding.size) :
    s.write bytes = (.error (.bufferTooShort s.encoding.size bytes.length), bytes) := by
  simp only [write, Action.bind_apply, Action.get_apply, h, if_true, Action.throw_apply]

theorem Holds.assign (h : s.Holds n) (bit : Nat) (on : Bool) :
    (s.assign bit on).Holds (n.put bit on) := by
  have hwidth : s.width = n.encoding.width := congrArg Primitive.width h.encoding
  by_cases hbit : bit < n.encoding.width
  · rw [Numbers.put, if_pos hbit]
    refine ⟨(encoding_assign s bit on).trans h.encoding, ?_, ?_⟩
    · rw [encoding_assign]
      exact h.integral
    · intro other
      rw [contains_assign (hwidth ▸ hbit)]
      cases on with
      | true => grind [h.contains other]
      | false => grind [h.contains other]
  · rw [Numbers.put, if_neg hbit, assign_of_le (hwidth ▸ Nat.le_of_not_lt hbit)]
    exact h

def Does (command : Command) (s : BitSet) (n : Numbers) : Prop :=
  (∃ e, n.refusal? command = some e ∧ command.run s = .error e ∧ n.next command = n) ∨
    ∃ s', n.refusal? command = none ∧ command.run s = .ok s' ∧ s'.Holds (n.next command)

theorem Holds.with? (h : s.Holds n) (bit : Nat) (on : Bool) :
    (∃ e, n.refusalAt bit = some e ∧ s.with? bit on = .error e ∧ n.put bit on = n) ∨
      ∃ s', n.refusalAt bit = none ∧ s.with? bit on = .ok s' ∧ s'.Holds (n.put bit on) := by
  have hwidth : s.width = n.encoding.width := congrArg Primitive.width h.encoding
  by_cases hbit : bit < n.encoding.width
  · exact .inr ⟨s.assign bit on, if_pos hbit, with?_of_lt (hwidth ▸ hbit) on, h.assign bit on⟩
  · have hrefused := with?_of_le (hwidth ▸ Nat.le_of_not_lt hbit : s.width ≤ bit) on
    rw [hwidth] at hrefused
    exact .inl ⟨_, if_neg hbit, hrefused, if_neg hbit⟩

theorem holds_empty {p : Primitive} (hp : p.isFloat = false) : (empty p).Holds ⟨p, ∅⟩ where
  encoding := rfl
  integral := hp
  contains bit := by simp [contains_empty]

theorem holds_ofBits {p : Primitive} (hp : p.isFloat = false) (bits : Nat) :
    (ofBits bits p).Holds ⟨p, {bit ∈ Finset.range p.width | bits.testBit bit}⟩ where
  encoding := rfl
  integral := hp
  contains bit := by simp [contains_ofBits]

theorem holds_ofBytes {p : Primitive} (hp : p.isFloat = false) (bytes : Bytes) :
    (ofBytes bytes p).Holds ⟨p, {bit ∈ Finset.range p.width | bytes.bit bit}⟩ where
  encoding := rfl
  integral := hp
  contains bit := by simp [contains_ofBytes hp]

theorem Holds.does (h : s.Holds n) (command : Command) : Does command s n := by
  cases command with
  | insert bit => exact h.with? bit true
  | erase bit => exact h.with? bit false
  | update bit on => exact h.with? bit on
  | assign bit on => exact .inr ⟨s.assign bit on, rfl, rfl, h.assign bit on⟩
  | clear =>
    have hempty := holds_empty h.integral
    rw [h.encoding] at hempty
    exact .inr ⟨s.clear, rfl, rfl, by rwa [BitSet.clear, h.encoding]⟩
  | decode bytes encoding integral =>
    by_cases hbytes : encoding.size ≤ bytes.length
    · have hread : BitSet.read bytes encoding = .ok (ofBytes bytes encoding, encoding.size) :=
        if_neg (Nat.not_lt.mpr hbytes)
      refine .inr ⟨ofBytes bytes encoding, if_pos hbytes, ?_, ?_⟩
      · rw [Command.run, hread, Except.map]
      · rw [Numbers.next, if_pos hbytes]
        exact holds_ofBytes integral bytes
    · have hread : BitSet.read bytes encoding =
          .error (.bufferTooShort encoding.size bytes.length) :=
        if_pos (Nat.lt_of_not_le hbytes)
      refine .inl ⟨_, if_neg hbytes, ?_, if_neg hbytes⟩
      rw [Command.run, hread, Except.map]

theorem next_of_ok {s' : BitSet} {command : Command} (h : command.run s = .ok s') :
    s.next command = s' := by
  rw [next, h]

theorem next_of_error {e : Error} {command : Command} (h : command.run s = .error e) :
    s.next command = s := by
  rw [next, h]

theorem Holds.next (h : s.Holds n) (command : Command) :
    (s.next command).Holds (n.next command) := by
  rcases h.does command with ⟨e, -, hrun, hnext⟩ | ⟨s', -, hrun, hholds⟩
  · rw [next_of_error hrun, hnext]
    exact h
  · rw [next_of_ok hrun]
    exact hholds

theorem Holds.foldl_next (h : s.Holds n) (commands : List Command) :
    (commands.foldl BitSet.next s).Holds (commands.foldl Numbers.next n) := by
  induction commands generalizing s n with
  | nil => exact h
  | cons command rest ih => exact ih (h.next command)

theorem Holds.answers (h : s.Holds n) : s.Answers n where
  encoding := h.encoding
  below _ := contains_eq_false
  contains := h.contains
  size := size_eq_card h
  toList := toList_eq_sort h
  isEmpty := isEmpty_iff h
  accepted command hnone := by
    rcases h.does command with ⟨e, hsome, -, -⟩ | ⟨s', -, hrun, -⟩
    · rw [hsome] at hnone
      cases hnone
    · rw [hrun, next_of_ok hrun]
  refused command e hsome := by
    rcases h.does command with ⟨e', hsome', hrun, -⟩ | ⟨s', hnone, -, -⟩
    · rw [hsome] at hsome'
      cases hsome'
      exact ⟨hrun, next_of_error hrun⟩
    · rw [hsome] at hnone
      cases hnone
  ignored _ on hbit := assign_of_le hbit on
  written _ := exists_written h.integral
  unwritten _ := write_of_lt

end

/-- From an empty set or from any bits, and after any commands. -/
theorem answers_as_numbers {p : Primitive} (hp : p.isFloat = false) (bits : Nat)
    (commands : List Command) :
    (commands.foldl next (empty p)).Answers (commands.foldl Numbers.next ⟨p, ∅⟩) ∧
      (commands.foldl next (ofBits bits p)).Answers
        (commands.foldl Numbers.next ⟨p, {bit ∈ Finset.range p.width | bits.testBit bit}⟩) :=
  ⟨((holds_empty hp).foldl_next commands).answers,
    ((holds_ofBits hp bits).foldl_next commands).answers⟩

theorem answers_of_signed_byte :
    Primitive.int8.isFloat = false ∧
      ([.insert 7, .update 9 true, .decode [0x82] .int8 rfl, .erase 1].foldl next
        (ofBits 0x1ff .int8)).Answers
        ([.insert 7, .update 9 true, .decode [0x82] .int8 rfl, .erase 1].foldl Numbers.next
          ⟨.int8, {bit ∈ Finset.range Primitive.int8.width | Nat.testBit 0x1ff bit}⟩) :=
  ⟨rfl, (answers_as_numbers rfl 0x1ff _).2⟩

end SimpleBinary.BitSet
