import Mathlib.Data.List.Nodup
import SimpleBinary.Json.Import
import SimpleBinary.Json.Tree
import SimpleBinary.Proofs.Bits

namespace SimpleBinary

open JsonValues

/-- What the library promises: a value is seen as what it was made of, and the members of an object
are found by their names. -/
class LawfulJsonValues (J : Type) [JsonValues J] : Prop where
  view_null : view (null : J) = .null
  view_string : ∀ text, view (string text : J) = .string text
  view_array : ∀ items : List J, view (array items) = .array items
  view_ofInt64 : ∀ value, view (ofInt64 value : J) = .other
  view_ofUInt64 : ∀ value, view (ofUInt64 value : J) = .other
  toString?_string : ∀ text, toString? (string text : J) = some text
  toList?_array : ∀ items : List J, toList? (array items) = some items
  toInt64?_ofInt64 : ∀ value, toInt64? (ofInt64 value : J) = some value
  toUInt64?_ofUInt64 : ∀ value, toUInt64? (ofUInt64 value : J) = some value
  /-- Of members with one name the last is the one that stays. -/
  member_object : ∀ (members : List (String × J)) (name : String),
    member (object members) name = (members.reverse.lookup name).getD null

open LawfulJsonValues

namespace JsonValues

theorem lookup_of_mem {α : Type} {members : List (String × α)} (hn : (members.map Prod.fst).Nodup)
    {name : String} {value : α} (hm : (name, value) ∈ members) :
    members.lookup name = some value := by
  induction members with
  | nil => cases hm
  | cons first rest ih =>
    obtain ⟨hfirst, hrest⟩ := List.nodup_cons.mp hn
    rcases List.mem_cons.mp hm with rfl | hm
    · exact List.lookup_cons_self
    · have hother : (name == first.1) = false := by
        refine beq_eq_false_iff_ne.mpr fun heq => hfirst ?_
        rw [← heq]
        exact List.mem_map_of_mem hm
      rw [List.lookup_cons, hother]
      exact ih hrest hm

variable {J : Type} [JsonValues J] [LawfulJsonValues J]

theorem member_of_mem {members : List (String × J)} (hn : (members.map Prod.fst).Nodup)
    {name : String} {value : J} (hm : (name, value) ∈ members) :
    member (object members) name = value := by
  have hreverse : (members.reverse.map Prod.fst).Nodup := by
    rw [List.map_reverse]
    exact List.nodup_reverse.mpr hn
  rw [member_object, lookup_of_mem hreverse (List.mem_reverse.mpr hm), Option.getD_some]

theorem toScalar_ofScalar {p : Primitive} {s : Scalar} (h : p.Represents s)
    (hf : p.isFloat = false) : toScalar (ofScalar s : J) p = .ok s := by
  cases s with
  | float x =>
    rcases h with rfl | ⟨rfl, -⟩
    · cases hf
    · cases hf
  | uint n =>
    simp only [toScalar, hf, h.1, ofScalar, toUInt64?_ofUInt64, Option.map_some, Bool.false_eq_true,
      if_false, if_true]
  | int i =>
    simp only [toScalar, hf, h.1, ofScalar, toInt64?_ofInt64, Option.map_some, Bool.false_eq_true,
      if_false]

theorem view_ofScalar {p : Primitive} {s : Scalar} (h : p.Represents s)
    (hf : p.isFloat = false) : view (ofScalar s : J) = .other := by
  cases s with
  | float x =>
    rcases h with rfl | ⟨rfl, -⟩
    · cases hf
    · cases hf
  | uint n => exact view_ofUInt64 n
  | int i => exact view_ofInt64 i

end JsonValues

namespace JsonTree

theorem lookup_cons (key name : String) (value : JsonTree) (members : List (String × JsonTree)) :
    ((name, value) :: members).lookup key =
      if key = name then some value else members.lookup key := by
  rw [List.lookup_cons]
  by_cases h : key = name
  · rw [if_pos h, beq_iff_eq.mpr h]
  · rw [if_neg h, beq_eq_false_iff_ne.mpr h]

theorem lookup_insertMember (key name : String) (value : JsonTree)
    (members : List (String × JsonTree)) :
    (insertMember name value members).lookup key =
      if key = name then some value else members.lookup key := by
  induction members with
  | nil => exact lookup_cons key name value []
  | cons member rest ih =>
    obtain ⟨other, old⟩ := member
    rw [insertMember]
    split
    next hname =>
      rw [lookup_cons, lookup_cons, ← hname]
      by_cases hkey : key = name
      · rw [if_pos hkey, if_pos hkey]
      · rw [if_neg hkey, if_neg hkey, if_neg hkey]
    next hname =>
      split
      next => rw [lookup_cons]
      next =>
        rw [lookup_cons, lookup_cons, ih]
        by_cases hkey : key = name
        · rw [if_pos hkey, if_pos hkey, if_neg (hkey ▸ hname)]
        · rw [if_neg hkey, if_neg hkey]

theorem lookup_foldl_insertMember (key : String) (members sorted : List (String × JsonTree)) :
    (members.foldl (fun sorted (name, value) => insertMember name value sorted) sorted).lookup key =
      (members.reverse.lookup key).or (sorted.lookup key) := by
  induction members generalizing sorted with
  | nil => rfl
  | cons member rest ih =>
    rw [List.foldl_cons, ih, lookup_insertMember, List.reverse_cons, List.lookup_append,
      lookup_cons, Option.or_assoc]
    by_cases hkey : key = member.1
    · rw [if_pos hkey, if_pos hkey, Option.some_or]
    · rw [if_neg hkey, if_neg hkey, List.lookup_nil, Option.none_or]

theorem toUInt64_lt_of_nonneg {i : Int64} (h : ¬ i < 0) : i.toUInt64 < 0x8000000000000000 := by
  have hsign : 0 ≤ i.toBitVec.toInt := by
    rw [Int64.not_lt] at h
    exact Int64.le_iff_toInt_le.mp h
  have hword : i.toBitVec.toInt = _ := BitVec.toInt_eq_toNat_cond i.toBitVec
  have hlt : i.toBitVec.toNat < 2 ^ 64 := i.toBitVec.isLt
  apply UInt64.lt_iff_toNat_lt.mpr
  change i.toBitVec.toNat < 2 ^ 63
  split at hword <;> omega

theorem toInt64?_of_int64 (i : Int64) : (ofInt64 i).toInt64? = some i := by
  by_cases hi : i < 0
  · simp only [ofInt64, hi, if_true, toInt64?]
  · simp only [ofInt64, hi, if_false, toInt64?, toUInt64_lt_of_nonneg hi, if_true,
      Int64.toInt64_toUInt64]

instance : LawfulJsonValues JsonTree where
  view_null := rfl
  view_string _ := rfl
  view_array _ := rfl
  view_ofInt64 _ := rfl
  view_ofUInt64 _ := rfl
  toString?_string _ := rfl
  toList?_array _ := rfl
  toInt64?_ofInt64 := toInt64?_of_int64
  toUInt64?_ofUInt64 _ := rfl
  member_object members name := by
    have hlookup := lookup_foldl_insertMember name members []
    rw [List.lookup_nil, Option.or_none] at hlookup
    exact congrArg (Option.getD · null) hlookup

end JsonTree

variable {J : Type} [JsonValues J] [LawfulJsonValues J]

namespace Bytes

theorem flatten_pieces {size count : Nat} {bytes : Bytes} (h : bytes.length = count * size) :
    (pieces size count bytes).flatten = bytes := by
  induction count generalizing bytes with
  | zero =>
    rw [Nat.zero_mul] at h
    rw [List.length_eq_zero_iff.mp h]
    rfl
  | succ count ih =>
    rw [Nat.succ_mul] at h
    rw [pieces, List.flatten_cons, ih (by rw [List.length_drop]; omega), List.take_append_drop]

theorem length_of_mem_pieces {size count : Nat} {bytes : Bytes} (h : bytes.length = count * size)
    {piece : Bytes} (hp : piece ∈ pieces size count bytes) : piece.length = size := by
  induction count generalizing bytes with
  | zero => cases hp
  | succ count ih =>
    rw [Nat.succ_mul] at h
    rcases List.mem_cons.mp hp with rfl | hp
    · rw [List.length_take]
      omega
    · exact ih (by rw [List.length_drop]; omega) hp

end Bytes

theorem ScalarArray.mapM_toScalar {a : ScalarArray} (hf : a.primitive.isFloat = false)
    (h : a.bytes.length = a.length * a.primitive.size) :
    (a.toList.map (ofScalar : Scalar → J)).mapM (fun item =>
      (toScalar item a.primitive).map a.primitive.encode) =
        .ok (Bytes.pieces a.primitive.size a.length a.bytes) := by
  have hpieces (parts : List Bytes) (hl : ∀ piece ∈ parts, piece.length = a.primitive.size) :
      ((parts.map a.primitive.decode).map (ofScalar : Scalar → J)).mapM (fun item =>
        (toScalar item a.primitive).map a.primitive.encode) =
          (.ok parts : Except ImportError (List Bytes)) := by
    induction parts with
    | nil => rfl
    | cons piece rest ih =>
      have hscalar : toScalar (ofScalar (a.primitive.decode piece) : J) a.primitive = _ :=
        toScalar_ofScalar (Primitive.represents_decode a.primitive piece) hf
      have hencode := Primitive.encode_decode hf (hl piece List.mem_cons_self)
      rw [List.map_cons, List.map_cons, List.mapM_cons, hscalar,
        ih fun other hother => hl other (List.mem_cons_of_mem piece hother), Except.map, hencode]
      rfl
  exact hpieces _ fun piece hp => Bytes.length_of_mem_pieces h hp

structure SetDef.Named (s : SetDef) : Prop where
  found : ∀ choice ∈ s.choices, choice.since = 0 ∧ s.choice? choice.name = some choice
  all : ∀ bit < s.encoding.width, ∃ choice ∈ s.choices, choice.bit = bit

instance (s : SetDef) : Decidable s.Named :=
  decidable_of_iff (_ ∧ _) ⟨fun h => ⟨h.1, h.2⟩, fun h => ⟨h.1, h.2⟩⟩

def Choice.nameJson (choice : Choice) : J :=
  string choice.name

theorem SetDef.Named.foldlM_names {s : SetDef} (h : s.Named) (choices : List Choice)
    (hc : ∀ choice ∈ choices, choice ∈ s.choices ∧ choice.bit < s.encoding.width) (set : BitSet)
    (he : set.encoding = s.encoding) :
    ∃ set' : BitSet, (choices.map (Choice.nameJson : Choice → J)).foldlM (fun set name =>
        match (toString? name).bind s.choice? with
        | some choice => set.insert? choice.bit
        | none => .error .fieldNotFound) set = .ok set' ∧ set'.encoding = s.encoding ∧
      ∀ bit, set'.contains bit = (set.contains bit || choices.any (·.bit == bit)) := by
  induction choices generalizing set with
  | nil => exact ⟨set, rfl, he, by simp⟩
  | cons choice rest ih =>
    obtain ⟨hmem, hbit⟩ := hc choice List.mem_cons_self
    have hwidth : choice.bit < set.width := by
      rw [BitSet.width, he]
      exact hbit
    have hfound : (toString? (choice.nameJson : J)).bind s.choice? = some choice := by
      rw [Choice.nameJson, toString?_string]
      exact (h.found choice hmem).2
    obtain ⟨set', hfold, he', hcontains⟩ := ih
      (fun other hother => hc other (List.mem_cons_of_mem choice hother))
      (set.assign choice.bit true) ((set.encoding_assign _ _).trans he)
    refine ⟨set', ?_, he', ?_⟩
    · have hinsert : set.insert? choice.bit = .ok (set.assign choice.bit true) :=
        BitSet.with?_of_lt hwidth true
      simp only [List.map_cons, List.foldlM_cons, hfound, hinsert]
      exact hfold
    · intro bit
      rw [hcontains, BitSet.contains_assign hwidth, List.any_cons]
      by_cases heq : bit = choice.bit
      · simp [heq]
      · have hother : (choice.bit == bit) = false := beq_eq_false_iff_ne.mpr (Ne.symm heq)
        rw [if_neg heq, hother, Bool.false_or]

theorem SetDef.Named.chosen_names {s : SetDef} (h : s.Named) {set : BitSet}
    (he : set.encoding = s.encoding) :
    Binding.chosen s ((s.choices.filter fun choice => set.contains choice.bit).map
      (Choice.nameJson : Choice → J)) = .ok set := by
  obtain ⟨set', hfold, he', hcontains⟩ := h.foldlM_names (J := J)
    (s.choices.filter fun choice => set.contains choice.bit)
    (fun choice hchoice => by
      obtain ⟨hmem, hc⟩ := List.mem_filter.mp hchoice
      exact ⟨hmem, he ▸ BitSet.lt_of_contains hc⟩) (.empty s.encoding) rfl
  have hset : set' = set := by
    apply BitSet.eq_of_contains (he'.trans he.symm)
    intro bit
    have hempty : (BitSet.empty s.encoding).contains bit = false := Nat.zero_testBit bit
    rw [hcontains, hempty, Bool.false_or, Bool.eq_iff_iff, List.any_eq_true]
    constructor
    · rintro ⟨choice, hchoice, heq⟩
      rw [← beq_iff_eq.mp heq]
      exact (List.mem_filter.mp hchoice).2
    · intro hc
      obtain ⟨choice, hmem, rfl⟩ := h.all bit (he ▸ BitSet.lt_of_contains hc)
      exact ⟨choice, List.mem_filter.mpr ⟨hmem, hc⟩, beq_self_eq_true _⟩
  rw [hset] at hfold
  exact hfold

end SimpleBinary
