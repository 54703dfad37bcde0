import SimpleBinary.Proofs.Counters

/-!
The elements of a group as the one who wrote the header and the one who reads it step over them. The
writer steps by the block length of the schema, the reader by what the header has room for of it, so
that they meet the same elements just when the member carries the block length.
-/

namespace SimpleBinary

structure GroupOf.Legible {F : Type} (g : GroupOf F) : Prop where
  inside : g.MembersInside
  blockLength_unsigned : g.blockLengthMember.primitive.isUnsigned
  numInGroup_unsigned : g.numInGroupMember.primitive.isUnsigned
  apart : Bytes.Apart g.blockLengthMember.offset g.blockLengthMember.primitive.size
    g.numInGroupMember.offset g.numInGroupMember.primitive.size

instance {F : Type} (g : GroupOf F) : Decidable g.Legible :=
  decidable_of_iff (g.MembersInside ∧ _ ∧ _ ∧ _)
    ⟨fun h => ⟨h.1, h.2.1, h.2.2.1, h.2.2.2⟩,
      fun h => ⟨h.inside, h.blockLength_unsigned, h.numInGroup_unsigned, h.apart⟩⟩

/-- The block length that the header of the group can announce. -/
def GroupOf.announcedLength {F : Type} (g : GroupOf F) : Nat :=
  g.blockLength % 2 ^ g.blockLengthMember.primitive.width

theorem Primitive.mod_width_eq_iff (p : Primitive) (n : Nat) :
    n % 2 ^ p.width = n ↔ n ≤ p.rawMax := by
  rw [le_rawMax_iff]
  constructor
  · intro heq
    rw [← heq]
    exact Nat.mod_lt _ (Nat.two_pow_pos _)
  · exact Nat.mod_eq_of_lt

theorem GroupOf.announcedLength_eq_iff {F : Type} (g : GroupOf F) :
    g.announcedLength = g.blockLength ↔
      g.blockLength ≤ g.blockLengthMember.primitive.rawMax :=
  g.blockLengthMember.primitive.mod_width_eq_iff g.blockLength

namespace Primitive

theorem toUInt64_decode_encode_mod {p : Primitive} (hu : p.isUnsigned) (n : Nat) :
    (p.decode (p.encode (.uint (UInt64.ofNat n)))).toUInt64.toNat = n % 2 ^ p.width := by
  have hf : p.isFloat = false := by
    cases p with
    | float | double => cases hu
    | _ => rfl
  have hdvd : 2 ^ p.width ∣ 2 ^ 64 := Nat.pow_dvd_pow 2 (by cases p <;> decide)
  have hword : (UInt64.ofNat n).toNat = n % 2 ^ 64 := UInt64.toNat_ofNat'
  have hlt : n % 2 ^ p.width < 2 ^ 64 :=
    Nat.lt_of_lt_of_le (Nat.mod_lt _ (Nat.two_pow_pos _)) (Nat.le_of_dvd (by decide) hdvd)
  have hread : p.ofRaw (n % 2 ^ p.width) = .uint (UInt64.ofNat (n % 2 ^ p.width)) := by
    cases p with
    | char | uint8 | uint16 | uint32 | uint64 => rfl
    | _ => cases hu
  rw [decode_encode_raw, toRaw_uint hf, hword, Nat.mod_mod_of_dvd _ hdvd, hread, Scalar.toUInt64,
    UInt64.toNat_ofNat_of_lt' hlt]

end Primitive

namespace GroupView

variable {g : GroupView} {w w' : Window} {n : Nat}

structure Opened (g : GroupView) (w : Window) : Prop where
  sound : w.Sound
  behind : g.visible = true →
    w.position = g.headerOffset + g.definition.dimension.encodedLength

theorem opened_of_bind {f : Field} {d : GroupDef} {visible : Bool} (hw : w.Sound)
    (h : bind f d visible w = (.ok g, w')) : g.Opened w' := by
  rcases bind_cases h with ⟨-, rfl, rfl⟩ | ⟨-, _, _, -, -, rfl, hle, rfl⟩
  · exact ⟨hw, by rintro ⟨⟩⟩
  · exact ⟨hw.moved hle, fun _ => rfl⟩

namespace Opened

theorem header_le (h : g.Opened w) (hv : g.visible = true) :
    g.headerOffset + g.definition.dimension.encodedLength ≤ w.limit :=
  h.behind hv ▸ h.sound.position_le

theorem header_fits (h : g.Opened w) (hv : g.visible = true) :
    g.headerOffset + g.definition.dimension.encodedLength ≤ w.bytes.length :=
  Nat.le_trans (h.header_le hv) h.sound.limit_le

end Opened

theorem resetCount_of_opened (hg : g.definition.MembersInside) (ho : g.Opened w) {it : Iteration}
    (h : Iteration.resetCount n ⟨g, w⟩ = (.ok ⟨⟩, it)) :
    g.visible = true ∧ g.index = 0 ∧ n ≤ g.definition.numInGroupMember.primitive.rawMax ∧
      it = ⟨g.counted n, g.headed w n⟩ := by
  obtain ⟨hv, hi, hn⟩ := resetCount_eq_ok h
  rw [resetCount_of_le hv hi hn hg (ho.header_le hv)] at h
  exact ⟨hv, hi, hn, (Prod.mk.inj h).2.symm⟩

theorem opened_of_resetCount (hg : g.definition.MembersInside) (ho : g.Opened w) {it : Iteration}
    (h : Iteration.resetCount n ⟨g, w⟩ = (.ok ⟨⟩, it)) : it.group.Opened it.window := by
  obtain ⟨hv, -, -, rfl⟩ := resetCount_of_opened hg ho h
  have hlength : (g.headed w n).bytes.length = w.bytes.length :=
    length_headed hg (ho.header_fits hv) n
  exact ⟨⟨ho.sound.position_le, ho.sound.limit_le.trans_eq hlength.symm⟩, ho.behind⟩

theorem bind_headed_legible (hg : g.definition.Legible) (ho : g.Opened w) (hv : g.visible = true)
    (hn : n ≤ g.definition.numInGroupMember.primitive.rawMax) :
    bind g.field g.definition true { g.headed w n with position := g.headerOffset } =
      (.ok ⟨g.field, g.definition, g.headerOffset, g.definition.announcedLength, n, 0, none, true⟩,
        g.headed w n) := by
  have hheader : Window.read { g.headed w n with position := g.headerOffset } g.headerOffset
      g.definition.dimension.encodedLength = _ := Window.read_of_le (ho.header_le hv)
  have hbind := bind_of_header hg.inside hheader g.field
  have hblock : g.definition.blockLengthMember.number ((g.headed w n).bytes.slice g.headerOffset
      g.definition.dimension.encodedLength) = g.definition.announcedLength := by
    rw [Member.number, Bytes.slice_slice _ hg.inside.blockLength,
      slice_headed_blockLength hg.inside (ho.header_fits hv) hg.apart]
    exact Primitive.toUInt64_decode_encode_mod hg.blockLength_unsigned _
  have hcount : g.definition.numInGroupMember.number ((g.headed w n).bytes.slice g.headerOffset
      g.definition.dimension.encodedLength) = n := by
    apply Member.number_of_encode hg.numInGroup_unsigned hn
    rw [Bytes.slice_slice _ hg.inside.numInGroup,
      slice_headed_count hg.inside (ho.header_fits hv)]
    rfl
  have hbehind : Window.moved { g.headed w n with position := g.headerOffset }
      g.definition.dimension.encodedLength = g.headed w n := by
    rw [Window.moved, ← ho.behind hv]
    rfl
  dsimp only at hbind
  rw [hblock, hcount, hbehind] at hbind
  exact hbind

end GroupView

namespace Iteration

def afterNexts (calls : Nat) (it : Iteration) : Iteration :=
  (fun it => (next it).2)^[calls] it

/-- Where the element of this number begins, when there is one inside of the limit and all of the
elements lie back to back from the position on. -/
def elementStart? (it : Iteration) (number : Nat) : Option Nat :=
  if number < it.group.count ∧
      it.window.position + (number + 1) * it.group.blockLength ≤ it.window.limit then
    some (it.window.position + number * it.group.blockLength)
  else none

structure Visited (it : Iteration) (calls visits : Nat) (after : Iteration) : Prop where
  index_eq : after.group.index = visits
  count_eq : after.group.count = it.group.count
  blockLength_eq : after.group.blockLength = it.group.blockLength
  window_eq : after.window = it.window.moved (visits * it.group.blockLength)
  le : visits ≤ calls
  stopped : visits < calls → it.elementStart? visits = none

variable {it after : Iteration} {calls visits : Nat}

theorem elementStart?_of_le {number number' : Nat} (h : it.elementStart? number = none)
    (hle : number ≤ number') : it.elementStart? number' = none := by
  have hmul := Nat.mul_le_mul_right it.group.blockLength (Nat.add_le_add_right hle 1)
  unfold elementStart? at *
  split at h
  next => cases h
  next hnot =>
    rw [if_neg]
    rintro ⟨hcount, hfits⟩
    exact hnot ⟨by omega, by omega⟩

namespace Visited

theorem next_cases (h : it.Visited calls visits after) :
    (∃ e, it.elementStart? visits = none ∧ next after = (.error e, after)) ∨
    ∃ start, it.elementStart? visits = some start ∧ next after =
      (.ok start, ⟨after.group.entered start, after.window.moved after.group.blockLength⟩) := by
  obtain ⟨g, w⟩ := after
  obtain ⟨hindex, hcount, hlength, hwindow, -, -⟩ := h
  dsimp only at hindex hcount hlength hwindow
  have hstop : w.position + g.blockLength =
      it.window.position + (visits + 1) * it.group.blockLength := by
    rw [hwindow, hlength, Window.moved_position, Nat.succ_mul, Nat.add_assoc]
  have hlimit : w.limit = it.window.limit := by rw [hwindow, Window.moved_limit]
  unfold elementStart?
  rw [← hstop, ← hlimit, ← hcount, ← hindex]
  by_cases hi : g.index < g.count
  · by_cases hle : w.position + g.blockLength ≤ w.limit
    · refine .inr ⟨_, if_pos ⟨hi, hle⟩, ?_⟩
      rw [next_of_le hi hle, hwindow, hindex]
      rfl
    · exact .inl ⟨_, if_neg fun hboth => hle hboth.2, next_of_lt hi (Nat.lt_of_not_le hle)⟩
  · exact .inl ⟨_, if_neg fun hboth => hi hboth.1, next_of_done (Nat.le_of_not_lt hi)⟩

theorem result_next (h : it.Visited calls visits after) :
    (next after).1.toOption = it.elementStart? visits := by
  rcases h.next_cases with ⟨e, hnone, hnext⟩ | ⟨start, hsome, hnext⟩
  · rw [hnone, hnext]
    rfl
  · rw [hsome, hnext]
    rfl

theorem succ (h : it.Visited calls visits after) :
    ∃ visits', it.Visited (calls + 1) visits' (next after).2 := by
  rcases h.next_cases with ⟨e, hnone, hnext⟩ | ⟨start, hsome, hnext⟩
  · rw [hnext]
    exact ⟨visits, h.index_eq, h.count_eq, h.blockLength_eq, h.window_eq, Nat.le_succ_of_le h.le,
      fun _ => hnone⟩
  · rw [hnext]
    refine ⟨visits + 1, ?_, h.count_eq, h.blockLength_eq, ?_, Nat.succ_le_succ h.le, ?_⟩
    · exact congrArg Nat.succ h.index_eq
    · dsimp only
      rw [h.window_eq, h.blockLength_eq, Window.moved_moved, Nat.succ_mul]
    · intro hlt
      have hnone := h.stopped (Nat.lt_of_succ_lt_succ hlt)
      rw [hsome] at hnone
      cases hnone

end Visited

theorem exists_visited (hi : it.group.index = 0) (calls : Nat) :
    ∃ visits, it.Visited calls visits (it.afterNexts calls) := by
  induction calls with
  | zero =>
    refine ⟨0, hi, rfl, rfl, ?_, Nat.le_refl 0, fun h => absurd h (Nat.lt_irrefl 0)⟩
    rw [Nat.zero_mul, Window.moved_zero]
    rfl
  | succ calls ih =>
    obtain ⟨visits, hvisited⟩ := ih
    rw [afterNexts, Function.iterate_succ_apply']
    exact hvisited.succ

theorem result_next_afterNexts (hi : it.group.index = 0) (number : Nat) :
    (next (it.afterNexts number)).1.toOption = it.elementStart? number := by
  obtain ⟨visits, hvisited⟩ := exists_visited hi number
  rw [hvisited.result_next]
  rcases Nat.lt_or_eq_of_le hvisited.le with hlt | rfl
  · have hnone := hvisited.stopped hlt
    rw [hnone, elementStart?_of_le hnone hvisited.le]
  · rfl

/-- A group bound again to the header that its count was written to has this count, and of its block
length what the header has room for. When that is all of it, both visit the same elements. -/
theorem strides_of_resetCount (g : GroupView) (w : Window) (n : Nat) (it : Iteration)
    (hg : g.definition.Legible) (ho : g.Opened w)
    (h : resetCount n ⟨g, w⟩ = (.ok ⟨⟩, it)) :
    ∃ again, GroupView.bind g.field g.definition g.visible
        { it.window with position := g.headerOffset } = (.ok again, it.window) ∧
      it.group.count = n ∧ again.count = n ∧
      it.group.blockLength = g.definition.blockLength ∧
      again.blockLength =
        g.definition.blockLength % 2 ^ g.definition.blockLengthMember.primitive.width ∧
      (∀ k, (next (it.afterNexts k)).1.toOption = it.elementStart? k) ∧
      (∀ k, (next (afterNexts k ⟨again, it.window⟩)).1.toOption =
        elementStart? ⟨again, it.window⟩ k) ∧
      (again.blockLength = it.group.blockLength ↔
        g.definition.blockLength ≤ g.definition.blockLengthMember.primitive.rawMax) ∧
      (g.definition.blockLength ≤ g.definition.blockLengthMember.primitive.rawMax →
        ∀ k, (next (afterNexts k ⟨again, it.window⟩)).1 = (next (it.afterNexts k)).1) := by
  obtain ⟨hv, hi, hn, rfl⟩ := GroupView.resetCount_of_opened hg.inside ho h
  have hbind := GroupView.bind_headed_legible hg ho hv hn
  have hsame : g.definition.announcedLength = g.definition.blockLength ↔
      g.definition.blockLength ≤ g.definition.blockLengthMember.primitive.rawMax :=
    g.definition.announcedLength_eq_iff
  rw [hv]
  refine ⟨_, hbind, rfl, rfl, rfl, rfl, result_next_afterNexts hi, result_next_afterNexts rfl,
    hsame, ?_⟩
  intro hle k
  rw [hsame.mpr hle, GroupView.counted, hi, hv]

theorem strides_of_resetCount_snapshot :
    ∃ it again,
      Market.Entries.group.Legible ∧
      GroupView.Opened
        ⟨Market.Snapshot.Fields.noMdEntries, Market.Entries.group, 0, 0, 0, 0, none, true⟩
        ⟨List.replicate 40 0, 40, 3, 2, by decide⟩ ∧
      resetCount 2
          ⟨⟨Market.Snapshot.Fields.noMdEntries, Market.Entries.group, 0, 0, 0, 0, none, true⟩,
            ⟨List.replicate 40 0, 40, 3, 2, by decide⟩⟩ = (.ok ⟨⟩, it) ∧
      GroupView.bind Market.Snapshot.Fields.noMdEntries Market.Entries.group true
        { it.window with position := 0 } = (.ok again, it.window) ∧
      again.blockLength = 33 ∧
      (next (afterNexts 0 ⟨again, it.window⟩)).1.toOption = some 3 ∧
      (next (afterNexts 1 ⟨again, it.window⟩)).1 = (next (it.afterNexts 1)).1 := by
  have hlegible : Market.Entries.group.Legible := by decide
  have hopened : GroupView.Opened
      ⟨Market.Snapshot.Fields.noMdEntries, Market.Entries.group, 0, 0, 0, 0, none, true⟩
      ⟨List.replicate 40 0, 40, 3, 2, by decide⟩ := ⟨⟨by decide, by decide⟩, fun _ => rfl⟩
  obtain ⟨again, hbind, -, hcount, -, hlength, -, hnext, -, hsame⟩ :=
    strides_of_resetCount _ _ 2 _ hlegible hopened rfl
  refine ⟨_, again, hlegible, hopened, rfl, hbind, hlength, ?_, hsame (by decide) 1⟩
  rw [hnext, elementStart?, hcount, hlength]
  rfl

end Iteration

namespace Market

def byteSizeEncoding : CompositeDef :=
  .ofFields "groupSizeEncoding" [
    .required "blockLength" 0 0 (.type Types.uint8),
    .required "numInGroup" 0 1 (.type Types.uint8)]

def longLevels : GroupDef :=
  { name := "levels"
    dimension := byteSizeEncoding
    blockLengthMember := ⟨0, .uint8⟩
    numInGroupMember := ⟨1, .uint8⟩
    blockLength := 256
    fields := [] }

end Market

theorem long_level_announced_empty :
    GroupOf.checked "levels" Market.byteSizeEncoding 256 [] = .ok Market.longLevels ∧
      Market.longLevels.Legible ∧
      ∃ levels w it again,
        GroupView.bind (.required "levels" 268 0 (.group Market.longLevels)) Market.longLevels true
          ⟨[0, 0], 2, 0, 2, by decide⟩ = (.ok levels, w) ∧
        Iteration.resetCount 1 ⟨levels, w⟩ = (.ok ⟨⟩, it) ∧
        GroupView.bind levels.field levels.definition levels.visible
          { it.window with position := levels.headerOffset } = (.ok again, it.window) ∧
        it.group.blockLength = 256 ∧ again.blockLength = 0 ∧
        (Iteration.next it).1 = .error (.bufferTooShort 258 2) ∧
        (Iteration.next ⟨again, it.window⟩).1 = .ok 2 :=
  ⟨rfl, by decide, _, _, _, _, rfl, rfl, rfl, rfl, rfl, rfl, rfl⟩

end SimpleBinary
