import SimpleBinary.Proofs.Shown

/-!
Content stored in another place than where a walk shows it: every byte that the content settles is
written as it was read. What content does not settle are gaps between fields and what follows the
first zero of a text.
-/

namespace SimpleBinary

namespace Bytes

def ZeroPadded (bytes : Bytes) : Prop :=
  bytes.untilZero.padded bytes.length = bytes

instance (bytes : Bytes) : Decidable bytes.ZeroPadded :=
  inferInstanceAs (Decidable (_ = _))

theorem slice_congr {bytes bytes' : Bytes} {start start' size : Nat}
    (h : ∀ i < size, bytes[start + i]? = bytes'[start' + i]?) :
    bytes.slice start size = bytes'.slice start' size := by
  apply List.ext_getElem?
  intro i
  rw [getElem?_slice, getElem?_slice]
  by_cases hi : i < size
  · rw [if_pos hi, if_pos hi, h i hi]
  · rw [if_neg hi, if_neg hi]

theorem getElem?_of_slice_eq {bytes bytes' : Bytes} {start start' size : Nat}
    (h : bytes.slice start size = bytes'.slice start' size) {i : Nat} (hi : i < size) :
    bytes[start + i]? = bytes'[start' + i]? := by
  have hbyte := congrArg (fun part : Bytes => part[i]?) h
  simpa only [getElem?_slice, if_pos hi] using hbyte

end Bytes

/-- Whether a stored field of the table takes the byte of the block. -/
def Occupied (fields : List Field) (i : Nat) : Prop :=
  ∃ f ∈ fields, f.isStored ∧ f.offset ≤ i ∧ i < f.offset + f.extent

instance (fields : List Field) (i : Nat) : Decidable (Occupied fields i) :=
  inferInstanceAs (Decidable (∃ f ∈ fields, _))

def Covers (fields : List Field) (length : Nat) : Prop :=
  ∀ i < length, Occupied fields i

instance (fields : List Field) (length : Nat) : Decidable (Covers fields length) :=
  inferInstanceAs (Decidable (∀ i < length, _))

def Member.Holds (m : Member) (i : Nat) : Prop :=
  m.offset ≤ i ∧ i < m.offset + m.primitive.size

instance (m : Member) (i : Nat) : Decidable (m.Holds i) :=
  inferInstanceAs (Decidable (_ ∧ _))

def GroupOf.HeaderCovered {F : Type} (g : GroupOf F) : Prop :=
  ∀ i < g.dimension.encodedLength, g.blockLengthMember.Holds i ∨ g.numInGroupMember.Holds i

instance {F : Type} (g : GroupOf F) : Decidable g.HeaderCovered :=
  inferInstanceAs (Decidable (∀ i < _, _))

def DataOf.HeaderCovered {F : Type} (d : DataOf F) : Prop :=
  d.lengthMember.offset = 0 ∧ d.lengthMember.primitive.size = d.headerLength

instance {F : Type} (d : DataOf F) : Decidable d.HeaderCovered :=
  inferInstanceAs (Decidable (_ ∧ _))

def Field.isText : Field → Bool
  | ⟨_, _, _, .type t, _, _, _⟩ => t.isText
  | _ => false

mutual

def Field.gapless : Field → Bool
  | ⟨_, _, _, .composite c, _, _, _⟩ =>
    Covers c.fields c.encodedLength && c.fields.all (!·.isText) && gaplessFields c.fields
  | ⟨_, _, _, .group g, _, _, _⟩ =>
    g.HeaderCovered && Covers g.fields g.blockLength && g.fields.all (!·.isText) &&
      gaplessFields g.fields
  | ⟨_, _, _, .data d, _, _, _⟩ => d.HeaderCovered
  | _ => true

def gaplessFields : List Field → Bool
  | [] => true
  | f :: rest => f.gapless && gaplessFields rest

end

namespace Field

variable {f : Field}

theorem isText_type {t : TypeDef} (hk : f.kind = .type t) : f.isText = t.isText := by
  obtain ⟨name, id, offset, kind, presence, constant, since⟩ := f
  cases hk
  rfl

theorem gapless_composite {c : CompositeDef} (hk : f.kind = .composite c) :
    f.gapless ↔ Covers c.fields c.encodedLength ∧ (∀ g ∈ c.fields, g.isText = false) ∧
      gaplessFields c.fields := by
  obtain ⟨name, id, offset, kind, presence, constant, since⟩ := f
  cases hk
  simp only [gapless, Bool.and_eq_true, decide_eq_true_eq, List.all_eq_true, Bool.not_eq_true',
    and_assoc]

theorem gapless_group {g : GroupDef} (hk : f.kind = .group g) :
    f.gapless ↔ g.HeaderCovered ∧ Covers g.fields g.blockLength ∧
      (∀ h ∈ g.fields, h.isText = false) ∧ gaplessFields g.fields := by
  obtain ⟨name, id, offset, kind, presence, constant, since⟩ := f
  cases hk
  simp only [gapless, Bool.and_eq_true, decide_eq_true_eq, List.all_eq_true, Bool.not_eq_true',
    and_assoc]

theorem gapless_data {d : DataDef} (hk : f.kind = .data d) : f.gapless ↔ d.HeaderCovered := by
  obtain ⟨name, id, offset, kind, presence, constant, since⟩ := f
  cases hk
  exact decide_eq_true_iff

end Field

theorem gaplessFields_cons {f : Field} {rest : List Field} :
    gaplessFields (f :: rest) ↔ f.gapless ∧ gaplessFields rest :=
  Bool.and_eq_true_iff

/-- The window `v` has in the stored fields of a table at `base'`, and in `length` bytes at its
position, what `u` has in those at `base` and at its own position. -/
structure Reproduced (fields : List Field) (base base' length : Nat) (u v : Window) : Prop where
  fixed : ∀ f ∈ fields, f.isStored →
    v.bytes.slice (base' + f.offset) f.extent =
      u.bytes.slice (base + f.offset) f.extent
  behind : v.bytes.slice v.position length = u.bytes.slice u.position length

namespace Reproduced

variable {fields fields' : List Field} {base base' length length' : Nat} {u v : Window}

theorem of_unstored {f : Field} (hf : f.isStored = false) : Reproduced [f] base base' 0 u v := by
  refine ⟨?_, by simp only [Bytes.slice, List.take_zero]⟩
  intro g hg hs
  rw [List.mem_singleton.mp hg, hf] at hs
  cases hs

theorem of_stored {f : Field}
    (h : v.bytes.slice (base' + f.offset) f.extent =
      u.bytes.slice (base + f.offset) f.extent) : Reproduced [f] base base' 0 u v := by
  refine ⟨?_, by simp only [Bytes.slice, List.take_zero]⟩
  intro g hg _
  rw [List.mem_singleton.mp hg]
  exact h

theorem of_behind {f : Field} (hf : f.isStored = false)
    (h : v.bytes.slice v.position length = u.bytes.slice u.position length) :
    Reproduced [f] base base' length u v :=
  ⟨(of_unstored (u := u) (v := v) hf).fixed, h⟩

theorem append (h : Reproduced fields base base' length u v)
    (h' : Reproduced fields' base base' length' (u.moved length) (v.moved length)) :
    Reproduced (fields ++ fields') base base' (length + length') u v := by
  constructor
  · intro f hf hs
    rcases List.mem_append.mp hf with hf | hf
    · exact h.fixed f hf hs
    · exact h'.fixed f hf hs
  · have hbehind := h'.behind
    simp only [Window.moved_bytes, Window.moved_position] at hbehind
    rw [Bytes.slice_add, Bytes.slice_add, h.behind, hbehind]

theorem byte_eq (h : Reproduced fields base base' length u v) {i : Nat} (hi : Occupied fields i) :
    v.bytes[base' + i]? = u.bytes[base + i]? := by
  obtain ⟨f, hf, hs, hle, hlt⟩ := hi
  have hbyte := Bytes.getElem?_of_slice_eq (h.fixed f hf hs) (i := i - f.offset) (by omega)
  rw [Nat.add_assoc, Nat.add_assoc, Nat.add_sub_cancel' hle] at hbyte
  exact hbyte

theorem block_eq (h : Reproduced fields base base' length u v) {size : Nat}
    (hc : Covers fields size) : v.bytes.slice base' size = u.bytes.slice base size :=
  Bytes.slice_congr fun i hi => h.byte_eq (hc i hi)

theorem element {size : Nat} (hc : Covers fields size)
    (h : Reproduced fields u.position v.position length (u.moved size) (v.moved size)) :
    Reproduced [] 0 0 (size + length) u v := by
  refine ⟨by simp, ?_⟩
  have hbehind := h.behind
  have hblock := h.block_eq hc
  simp only [Window.moved_bytes, Window.moved_position] at hbehind hblock
  rw [Bytes.slice_add, Bytes.slice_add, hblock, hbehind]

end Reproduced

namespace Primitive

variable {p : Primitive}

theorem uint_decode (hu : p.isUnsigned) (bytes : Bytes) :
    .uint (p.decode bytes).toUInt64 = p.decode bytes := by
  have hrepresents := represents_decode p bytes
  cases hdecode : p.decode bytes with
  | uint n => rfl
  | int i =>
    rw [hdecode] at hrepresents
    rw [hrepresents.1] at hu
    cases hu
  | float x =>
    rw [hdecode] at hrepresents
    rcases hrepresents with rfl | ⟨rfl, -⟩
    · cases hu
    · cases hu

theorem encode_uint_decode (hu : p.isUnsigned) {bytes : Bytes} (h : bytes.length = p.size) :
    p.encode (.uint (p.decode bytes).toUInt64) = bytes := by
  rw [uint_decode hu, encode_decode (isFloat_of_isUnsigned hu) h]

end Primitive

theorem Window.slice_of_readScalar {w : Window} {start : Nat} {p : Primitive} {s : Scalar}
    (hu : p.isUnsigned) (hw : w.limit ≤ w.bytes.length) (h : w.readScalar start p = .ok s) :
    w.bytes.slice start p.size = p.encode (.uint (UInt64.ofNat s.toUInt64.toNat)) := by
  have hle := le_of_readScalar h
  rw [readScalar_of_read (read_of_le hle)] at h
  cases h
  rw [UInt64.ofNat_toNat, Primitive.encode_uint_decode hu (Bytes.length_slice (by omega))]

theorem BitSet.toBytes_ofBytes {p : Primitive} (hu : p.isUnsigned) {bytes : Bytes}
    (h : bytes.length = p.size) : (ofBytes bytes p).toBytes = bytes := by
  have hlt : (p.decode bytes).toUInt64.toNat < 2 ^ p.width :=
    p.le_rawMax_iff.mp (Primitive.decode_le_rawMax hu bytes)
  have hbits : (ofBytes bytes p).bits = (p.decode bytes).toUInt64.toNat := Nat.mod_eq_of_lt hlt
  have hencode : (ofBytes bytes p).toBytes =
      p.encode (.uint (UInt64.ofNat (ofBytes bytes p).bits)) := rfl
  rw [hencode, hbits, UInt64.ofNat_toNat, Primitive.encode_uint_decode hu h]

theorem TypeDef.encode_valueOf {t : TypeDef} {content : Bytes} (hf : t.primitive.isFloat = false)
    (hl : content.length = t.extent) (hpadded : t.isText → content.ZeroPadded) :
    t.encode (t.valueOf content) = content := by
  unfold valueOf
  split
  next hone =>
    apply Primitive.encode_decode hf
    rw [hl, extent, hone, Nat.mul_one]
  next hone =>
    split
    next htext =>
      have hpad := hpadded htext
      rw [Bytes.ZeroPadded, hl, extent_of_isText htext] at hpad
      exact hpad
    next htext =>
      have hrest : content.length % t.primitive.size = 0 := by
        rw [hl, extent, Nat.mul_mod_right]
      rw [encode, ScalarArray.ofBytes, hrest, Nat.sub_zero, List.take_length]

namespace DataView

variable {d : DataView} {bytes payload : Bytes} {start : Nat}

theorem slice_covered (hc : d.definition.HeaderCovered)
    (hlength : bytes.slice (start + d.definition.lengthMember.offset)
      d.definition.lengthMember.primitive.size = d.lengthBytes payload)
    (hpayload : bytes.slice (start + d.headerLength) payload.length = payload) :
    bytes.slice start (d.headerLength + payload.length) = d.lengthBytes payload ++ payload := by
  obtain ⟨hoffset, hsize⟩ := hc
  rw [hoffset, hsize] at hlength
  rw [Bytes.slice_add, hpayload]
  exact congrArg (· ++ payload) hlength

theorem headerLength_lt {u : Window} {count place : Nat} {u' : Window} (hv : d.visible = true)
    (hc : d.definition.HeaderCovered) (hlength : d.length u = .ok count) {size : Nat}
    (hstep : Window.advance size u = (.ok place, u')) :
    u.position + d.headerLength < UInt64.size := by
  obtain ⟨hoffset, hsize⟩ := hc
  obtain ⟨hle, -, -⟩ := Window.advance_eq_ok.mp hstep
  have hword : wordOf (u.position + d.definition.lengthMember.offset) = u.position := by
    rw [hoffset]
    exact Window.wordOf_of_le (w := u) (by omega)
  simp only [length, hv, Bool.not_true, Bool.false_eq_true, if_false, hword] at hlength
  obtain ⟨s, hread, -⟩ := Action.except_bind_eq_ok hlength
  have hin := Window.le_of_readScalar hread
  rw [hsize] at hin
  exact u.lt_of_le_limit hin

theorem slice_of_value {u : Window} (hv : d.visible = true) (hd : d.definition.WellFormed)
    (hc : d.definition.HeaderCovered) (hu : u.limit ≤ u.bytes.length)
    (hlength : d.length u = .ok (d.definition.elementCount payload))
    (hvalue : (d.value u).1 = .ok payload) :
    (d.value u).2 = u.moved (d.headerLength + payload.length) ∧
      u.bytes.slice u.position (d.headerLength + payload.length) =
        d.lengthBytes payload ++ payload := by
  cases hplace : d.payload u with
  | error reason =>
    rw [value_of_error hv hplace] at hvalue
    cases hvalue
  | ok place =>
    obtain ⟨start, size⟩ := place
    obtain ⟨-, -, -, -, -, hle⟩ := payload_eq_ok hplace
    rw [value_of_payload hv hplace] at hvalue ⊢
    cases hadvance : Window.advance (wordOf (d.headerLength + size)) u with
    | mk result u' =>
      cases result with
      | error reason =>
        rw [hadvance] at hvalue
        cases hvalue
      | ok position =>
        have hword := headerLength_lt hv hc hlength hadvance
        obtain ⟨rfl, hstep⟩ := step_of_payload hplace hword
        rw [hstep] at hadvance hvalue
        cases hadvance
        cases hvalue
        have hsize : (u.bytes.slice (u.position + d.headerLength) size).length = size :=
          Bytes.length_slice (Nat.le_trans hle hu)
        refine ⟨by rw [hsize], slice_covered hc ?_ (by rw [hsize])⟩
        have hmember : wordOf (u.position + d.definition.lengthMember.offset) =
            u.position + d.definition.lengthMember.offset := by
          rw [hc.1]
          exact wordOf_of_lt (Nat.lt_of_add_right_lt hword)
        simp only [length, hv, Bool.not_true, Bool.false_eq_true, if_false, hmember] at hlength
        obtain ⟨count, hread, hcount⟩ := Action.except_bind_eq_ok hlength
        rw [Window.slice_of_readScalar hd.length_unsigned hu hread, lengthBytes,
          Except.ok.inj hcount]

end DataView

def Field.Within (f : Field) (base : Nat) (u : Window) : Prop :=
  f.isStored → base + f.offset + f.extent ≤ u.limit

theorem Field.Within.wordOf_place {f : Field} {base : Nat} {u : Window} (h : f.Within base u)
    (hf : f.isStored) : wordOf (base + f.offset) = base + f.offset :=
  Window.wordOf_of_le (Nat.le_of_add_right_le (h hf))

theorem LaidOut.within {fields : List Field} {base size : Nat} {u : Window}
    (h : LaidOut fields size) (hle : base + size ≤ u.limit) : ∀ f ∈ fields, f.Within base u := by
  intro f hf hs
  have := h.inside f hf hs
  omega

/-- Where a walk shows content, the content stored elsewhere reproduces the bytes that it was read
from. -/
def Field.Reproduces (f : Field) : Prop :=
  ∀ (base : Nat) (content : FieldContent) (u : Window), f.portable → f.gapless →
    f.wellFormed u.version → u.limit ≤ u.bytes.length → f.Within base u → f.admits content →
    (f.isText → (u.bytes.slice (base + f.offset) f.extent).ZeroPadded) →
    f.shows u.version content (f.walk base true u).1 →
    (f.walk base true u).2 = u.moved (f.wireLength content) ∧
      ∀ (base' size : Nat) (w : Window), w.version = u.version →
        (f.isStored → f.offset + f.extent ≤ size) →
        Room base' size (f.wireLength content) w →
        RoundTrips [f] base' (f.wireLength content) (f.store base' true content)
          (Reproduced [f] base base' (f.wireLength content) u) w

def ReproducesFields (fields : List Field) : Prop :=
  ∀ (base : Nat) (contents : List FieldContent) (u : Window), portableFields fields →
    gaplessFields fields → wellFormedFields u.version fields → u.limit ≤ u.bytes.length →
    (∀ f ∈ fields, f.Within base u) → admitsFields fields contents →
    (∀ f ∈ fields, f.isText → (u.bytes.slice (base + f.offset) f.extent).ZeroPadded) →
    showsFields u.version fields contents (walkFields base true fields u).1 →
    (walkFields base true fields u).2 = u.moved (wireLengthFields fields contents) ∧
      ∀ (base' size : Nat) (w : Window), w.version = u.version → LaidOut fields size →
        Room base' size (wireLengthFields fields contents) w →
        RoundTrips fields base' (wireLengthFields fields contents)
          (storeFields base' true fields contents)
          (Reproduced fields base base' (wireLengthFields fields contents) u) w

theorem Room.roundTrips_of_read {f : Field} {base base' size : Nat} {store : Action Window Unit}
    {u w : Window} {part : Bytes} (hr : Room base' size 0 w) (hf : f.isStored)
    (hin : f.offset + f.extent ≤ size) (hu : u.limit ≤ u.bytes.length) (hwithin : f.Within base u)
    (hread : u.read (wordOf (base + f.offset)) f.extent = .ok part)
    (hstore : store w = (.ok ⟨⟩, w.written (wordOf (base' + f.offset)) part)) :
    RoundTrips [f] base' 0 store (Reproduced [f] base base' 0 u) w := by
  apply RoundTrips.of_written hr hf hin (Window.length_of_read hu hread) hstore
  intro v _ hv
  rw [hwithin.wordOf_place hf] at hread
  rw [hr.wordOf_place hin] at hv
  apply Reproduced.of_stored
  rw [(Window.read_eq_ok.mp hread).2, (Window.read_eq_ok.mp hv).2]

namespace Field

theorem isStored_of_constant {f : Field} (hp : f.presence = .constant) : f.isStored = false := by
  rw [isStored, hp]
  exact Bool.and_false _

theorem isStored_of_variable {f : Field} (hf : f.isFixed = false) : f.isStored = false := by
  rw [isStored, hf, Bool.false_and]

theorem reproduces_type (f : Field) (t : TypeDef) (hk : f.kind = .type t) : f.Reproduces := by
  intro base content u hportable _ hwf hu hwithin ha hpadded hshows
  obtain ⟨hfloat, -, -, -⟩ := portable_type hk hportable
  have hfixed : f.isFixed := isFixed_of_kind (by simp [hk]) (by simp [hk])
  have hsince := (wellFormed_type hk).mp hwf
  rw [walk_type hk] at hshows ⊢
  rw [wireLength_of_fixed hfixed]
  refine ⟨rfl, ?_⟩
  intro base' size w hversion hin hr
  rcases admits_type hk ha with ⟨rfl, hp⟩ | ⟨v, rfl, hp, ha⟩
  · apply RoundTrips.of_nothing (store_none f w)
    intro v _
    exact .of_unstored (isStored_of_constant hp)
  · have hf := isStored_of_fixed hfixed hp
    have hlen := extent_type hk hp
    have hle := hr.wordOf_stored_le (hin hf)
    obtain ⟨part, hread, rfl⟩ :=
      Binding.read_of_value ⟨visible_bindAt hsince base, hp⟩ hk
        (extent_lt_of_portable hk hportable) (shows_value hk hshows)
    have hencode : t.encode (t.valueOf part) = part := by
      apply TypeDef.encode_valueOf hfloat ((Window.length_of_read hu hread).trans hlen)
      intro htext
      have hpad := hpadded ((isText_type hk).trans htext)
      rw [← hwithin.wordOf_place hf] at hpad
      rw [← (Window.read_eq_ok.mp hread).2]
      exact hpad
    apply hr.roundTrips_of_read hf (hin hf) hu hwithin hread
    have hstore := Binding.setValue_of_admits (b := f.bindAt base' true w.version) hk hp
      (visible_bindAt (hversion ▸ hsince) base') ha (hlen ▸ hle)
    rw [hencode] at hstore
    rw [store_type hk]
    exact hstore

theorem reproduces_enum (f : Field) (e : EnumDef) (hk : f.kind = .enum e) : f.Reproduces := by
  intro base content u hportable _ hwf hu hwithin ha _ hshows
  obtain ⟨-, hp, -, -⟩ := portable_enum hk hportable
  have hfixed : f.isFixed := isFixed_of_kind (by simp [hk]) (by simp [hk])
  obtain ⟨hsince, hunsigned⟩ := (wellFormed_enum hk).mp hwf
  rw [walk_enum hk] at hshows ⊢
  rw [wireLength_of_fixed hfixed]
  refine ⟨rfl, ?_⟩
  intro base' size w hversion hin hr
  rcases admits_enum hk ha with ⟨-, hconstant⟩ | ⟨n, rfl, -, -⟩
  · exact absurd hconstant hp
  · have hf := isStored_of_fixed hfixed hp
    have hlen := extent_enum hk hp
    have hle := hr.wordOf_stored_le (hin hf)
    obtain ⟨part, hread, rfl⟩ :=
      Binding.read_of_enumRaw ⟨visible_bindAt hsince base, hp⟩ hk (shows_raw hk hshows)
    have hlength := (Window.length_of_read hu hread).trans hlen
    apply hr.roundTrips_of_read hf (hin hf) hu hwithin hread
    rw [store_enum hk, Binding.setEnumRaw_of_stored hk hp
      (visible_bindAt (hversion ▸ hsince) base') (hlen ▸ hle),
      Primitive.encode_uint_decode hunsigned hlength]
    rfl

theorem reproduces_set (f : Field) (s : SetDef) (hk : f.kind = .set s) : f.Reproduces := by
  intro base content u hportable _ hwf hu hwithin ha _ hshows
  obtain ⟨hp, -⟩ := (portable_set hk).mp hportable
  have hfixed : f.isFixed := isFixed_of_kind (by simp [hk]) (by simp [hk])
  obtain ⟨hsince, hunsigned⟩ := (wellFormed_set hk).mp hwf
  rw [walk_set hk] at hshows ⊢
  rw [wireLength_of_fixed hfixed]
  refine ⟨rfl, ?_⟩
  intro base' size w hversion hin hr
  rcases admits_set hk ha with ⟨-, hconstant⟩ | ⟨set, rfl, -, -⟩
  · exact absurd hconstant hp
  · have hf := isStored_of_fixed hfixed hp
    have hlen := extent_set hk hp
    have hle := hr.wordOf_stored_le (hin hf)
    obtain ⟨part, hread, rfl⟩ :=
      Binding.read_of_bits ⟨visible_bindAt hsince base, hp⟩ hk (shows_bits hk hshows)
    have hlength := (Window.length_of_read hu hread).trans hlen
    have hset : BitSet.ofBits (BitSet.ofBytes part s.encoding).bits s.encoding =
        BitSet.ofBytes part s.encoding := BitSet.ofBits_bits (BitSet.ofBytes part s.encoding)
    apply hr.roundTrips_of_read hf (hin hf) hu hwithin hread
    rw [store_set hk, Binding.setBits_of_stored hk hp
      (visible_bindAt (hversion ▸ hsince) base') (hlen ▸ hle), hset,
      BitSet.toBytes_ofBytes hunsigned hlength]
    rfl

theorem reproduces_composite (f : Field) (c : CompositeDef) (hk : f.kind = .composite c)
    (ih : ReproducesFields c.fields) : f.Reproduces := by
  intro base content u hportable hgapless hwf hu hwithin ha _ hshows
  obtain ⟨hp, -, -, hportable⟩ := (portable_composite hk).mp hportable
  obtain ⟨hcovers, htexts, hgapless⟩ := (gapless_composite hk).mp hgapless
  have hfixed : f.isFixed := isFixed_of_kind (by simp [hk]) (by simp [hk])
  obtain ⟨hsince, hlaid, hmembers, hwf⟩ := (wellFormed_composite hk).mp hwf
  have hlen := extent_composite hk hp
  have hvisible : (true && f.inVersion u.version) = true := decide_eq_true hsince
  rcases admits_composite hk ha with ⟨-, hconstant⟩ | ⟨contents, rfl, -, ha⟩
  · exact absurd hconstant hp
  · rw [walk_composite hk, hvisible] at hshows ⊢
    rw [wireLength_of_fixed hfixed]
    have hf := isStored_of_fixed hfixed hp
    have hbase := hwithin.wordOf_place hf
    rw [hbase] at hshows ⊢
    obtain ⟨hmoved, hstores⟩ := ih (base + f.offset) contents u hportable hgapless hwf hu
      (hlaid.within (hlen ▸ hwithin hf)) ha
      (fun g hg htext => by rw [htexts g hg] at htext; cases htext) (shows_members hk hshows)
    rw [wireLengthFields_of_fixed hmembers] at hmoved hstores
    refine ⟨hmoved, ?_⟩
    intro base' size w hversion hin hr
    have hin := hin hf
    have hroom : Room (base' + f.offset) c.encodedLength 0 w := by
      refine ⟨?_, hr.behind_le, hr.limit_le, hr.limit_le_max⟩
      have := hr.block_le
      omega
    have hparts := hstores (base' + f.offset) c.encodedLength w hversion hlaid hroom
    have hstore : f.store base' true (.members contents) w =
        storeFields (base' + f.offset) true c.fields contents w := by
      have hvisible' : (true && f.inVersion w.version) = true := hversion ▸ hvisible
      rw [store_composite hk, hvisible', hr.wordOf_place hin]
    have hwhole := (RoundTrips.of_parts hf (hlen ▸ hlaid.inside) hparts).mono fun v hv =>
      Reproduced.of_stored (f := f) (hlen ▸ hv.block_eq hcovers)
    obtain ⟨w', hstores, hfound⟩ := hwhole
    exact ⟨w', hstore.trans hstores, hfound⟩

theorem reproduces_data (f : Field) (d : DataDef) (hk : f.kind = .data d) : f.Reproduces := by
  intro base content u _ hgapless hwf hu _ ha _ hshows
  obtain ⟨hsince, hd⟩ := (wellFormed_data hk).mp hwf
  have hcovered := (gapless_data hk).mp hgapless
  obtain ⟨bytes, rfl, hadmits⟩ := admits_data hk ha
  rw [walk_data hk] at hshows ⊢
  rw [wireLength_data hk]
  obtain ⟨hlength, hvalue⟩ := shows_payload hk hshows
  obtain ⟨hmoved, hsource⟩ := DataView.slice_of_value (d := f.dataView d true u.version)
    (decide_eq_true hsince) hd hcovered hu hlength hvalue
  refine ⟨hmoved, ?_⟩
  intro base' size w hversion _ hr
  obtain ⟨hstore, hs⟩ := store_data_stored hk (hversion ▸ hsince) hd hadmits hr
  refine ⟨_, hstore, hs, ?_⟩
  intro v hcopy
  apply Reproduced.of_behind (isStored_of_variable (isFixed_data hk))
  have hfit : w.position + ((f.dataView d true w.version).headerLength + bytes.length) ≤
      w.bytes.length := Nat.le_trans hr.behind_le hr.limit_le
  have htarget := DataView.slice_covered (d := f.dataView d true w.version) hcovered
    (DataView.slice_stored_length hd.inside hfit) (DataView.slice_stored_payload hd.inside hfit)
  rw [hcopy.position_eq, hcopy.behind.slice_eq]
  exact htarget.trans hsource.symm

end Field

theorem elements_reproduced {g : GroupDef} {version : UInt16} (hportable : portableFields g.fields)
    (hgapless : gaplessFields g.fields) (hcovers : Covers g.fields g.blockLength)
    (htexts : ∀ f ∈ g.fields, f.isText = false) (hlaid : LaidOut g.fields g.blockLength)
    (hwf : wellFormedFields version g.fields) (ih : ReproducesFields g.fields)
    (contents : List (List FieldContent)) (ha : ∀ content ∈ contents, admitsFields g.fields content)
    (source : GroupView) (u : Window) (hversion : u.version = version)
    (hu : u.limit ≤ u.bytes.length) (hb : source.blockLength = g.blockLength)
    (hc : source.count = source.index + contents.length)
    (hshows : g.ShowsElements version contents
      (Walk.elements (fun base => walkFields base true g.fields) contents.length ⟨source, u⟩).1) :
    (Walk.elements (fun base => walkFields base true g.fields) contents.length
        ⟨source, u⟩).2.window = u.moved (g.elementsLength contents) ∧
      ∀ (view : GroupView) (w : Window), w.version = version → view.blockLength = g.blockLength →
        view.count = view.index + contents.length → Room 0 0 (g.elementsLength contents) w →
        g.StoresElements contents view (Reproduced [] 0 0 (g.elementsLength contents) u) w := by
  induction contents generalizing source u with
  | nil =>
    refine ⟨rfl, ?_⟩
    intro view w _ _ _ _
    exact .nil fun v => ⟨by simp, rfl⟩
  | cons content rest hrest =>
    have hsum : g.elementsLength (content :: rest) =
        g.blockLength + wireLengthFields g.fields content + g.elementsLength rest := rfl
    rw [List.length_cons] at hc hshows ⊢
    by_cases hle : u.position + source.blockLength ≤ u.limit
    · rw [Walk.elements_succ_of_le (by omega) hle, hb] at hshows ⊢
      cases hshows with
      | cons hfirst hothers =>
        obtain ⟨readings, hreadings, hfields⟩ := hfirst
        cases hreadings
        obtain ⟨hmoved, hstores⟩ := ih u.position content (u.moved g.blockLength) hportable
          hgapless (hversion ▸ hwf) hu (hlaid.within (hb ▸ hle)) (ha content List.mem_cons_self)
          (fun f hf htext => by rw [htexts f hf] at htext; cases htext) (hversion ▸ hfields)
        rw [hmoved, Window.moved_moved] at hothers ⊢
        obtain ⟨hmovedRest, hstoresRest⟩ := hrest
          (fun other hother => ha other (List.mem_cons_of_mem content hother))
          (source.entered u.position) (u.moved (g.blockLength + wireLengthFields g.fields content))
          hversion hu hb (by simp only [GroupView.entered, hc]; omega) hothers
        rw [hmovedRest, Window.moved_moved]
        refine ⟨rfl, ?_⟩
        intro view w hversion' hb' hc' hr
        obtain ⟨it, hstore, hs, hreads⟩ := GroupOf.StoresElements.cons hlaid hb' hc' hr
          (fun hroom => hstores w.position g.blockLength (w.moved g.blockLength)
            (hversion'.trans hversion.symm) hlaid hroom)
          (fun w₁ hversion₁ hcount hroom => hstoresRest (view.entered w.position) w₁
            (hversion₁.trans hversion') hb' hcount hroom)
        refine ⟨it, hstore, hs, ?_⟩
        intro v hcopy
        obtain ⟨hfirst, hothers⟩ := hreads v hcopy
        rw [← hcopy.position_eq] at hfirst
        -- The fields cover the block, so that the element is reproduced as a piece of the wire.
        exact (Reproduced.element hcovers hfirst).append hothers
    · rw [Walk.elements_succ_of_lt (by omega) (Nat.lt_of_not_le hle)] at hshows
      cases hshows with
      | cons hfirst _ =>
        obtain ⟨readings, hreadings, -⟩ := hfirst
        cases hreadings

theorem GroupOf.HeaderCovered.slice_congr {g : GroupDef} (hc : g.HeaderCovered)
    {bytes bytes' : Bytes} {start start' : Nat}
    (hblock : bytes.slice (start + g.blockLengthMember.offset) g.blockLengthMember.primitive.size =
      bytes'.slice (start' + g.blockLengthMember.offset) g.blockLengthMember.primitive.size)
    (hcount : bytes.slice (start + g.numInGroupMember.offset) g.numInGroupMember.primitive.size =
      bytes'.slice (start' + g.numInGroupMember.offset) g.numInGroupMember.primitive.size) :
    bytes.slice start g.dimension.encodedLength =
      bytes'.slice start' g.dimension.encodedLength := by
  have hmember (m : Member) (h : bytes.slice (start + m.offset) m.primitive.size =
      bytes'.slice (start' + m.offset) m.primitive.size) {i : Nat} (hi : m.Holds i) :
      bytes[start + i]? = bytes'[start' + i]? := by
    obtain ⟨hle, hlt⟩ := hi
    have hbyte := Bytes.getElem?_of_slice_eq h (i := i - m.offset) (by omega)
    rw [Nat.add_assoc, Nat.add_assoc, Nat.add_sub_cancel' hle] at hbyte
    exact hbyte
  apply Bytes.slice_congr
  intro i hi
  rcases hc i hi with hholds | hholds
  · exact hmember g.blockLengthMember hblock hholds
  · exact hmember g.numInGroupMember hcount hholds

theorem GroupView.slice_headed_of_read {view : GroupView} {w u : Window}
    {blockLength count : Scalar} (hg : view.definition.WellFormed)
    (hcovered : view.definition.HeaderCovered)
    (hfit : view.headerOffset + view.definition.dimension.encodedLength ≤ w.bytes.length)
    (hu : u.limit ≤ u.bytes.length)
    (hle : u.position + view.definition.dimension.encodedLength ≤ u.limit)
    (hblockRead : u.readScalar (wordOf (u.position + view.definition.blockLengthMember.offset))
      view.definition.blockLengthMember.primitive = .ok blockLength)
    (hcountRead : u.readScalar (wordOf (u.position + view.definition.numInGroupMember.offset))
      view.definition.numInGroupMember.primitive = .ok count)
    (hblock : blockLength.toUInt64.toNat = view.definition.blockLength) :
    (view.headed w count.toUInt64.toNat).bytes.slice view.headerOffset
        view.definition.dimension.encodedLength =
      u.bytes.slice u.position view.definition.dimension.encodedLength := by
  have hblockIn := hg.inside.blockLength
  have hcountIn := hg.inside.numInGroup
  unfold Member.Inside at hblockIn hcountIn
  rw [Window.wordOf_of_le (w := u) (by omega)] at hblockRead hcountRead
  apply hcovered.slice_congr
  · rw [slice_headed_blockLength hg.inside hfit hg.apart,
      Window.slice_of_readScalar hg.blockLength_unsigned hu hblockRead, hblock]
    rfl
  · rw [slice_headed_count hg.inside hfit,
      Window.slice_of_readScalar hg.numInGroup_unsigned hu hcountRead]
    rfl

theorem Field.reproduces_group (f : Field) (g : GroupDef) (hk : f.kind = .group g)
    (ih : ReproducesFields g.fields) : f.Reproduces := by
  intro base content u hportable hgapless hwf hu _ ha _ hshows
  obtain ⟨-, hportable⟩ := (portable_group hk).mp hportable
  obtain ⟨hheader, hcovers, htexts, hgapless⟩ := (gapless_group hk).mp hgapless
  obtain ⟨hsince, hg, hlaid, hwf⟩ := (wellFormed_group hk).mp hwf
  obtain ⟨contents, rfl, hcount, ha⟩ := admits_group hk ha
  obtain ⟨source, v, hbind, -, hcounted, hblock, helements, hafter⟩ := bound_of_shown hk hshows
  have hlen : f.wireLength (.elements contents) =
    g.dimension.encodedLength + g.elementsLength contents := wireLength_group hk contents
  have hvisible : (true && f.inVersion u.version) = true := decide_eq_true hsince
  rw [hlen, hafter]
  rcases GroupView.bind_cases hbind with
    ⟨hinvisible, -⟩ | ⟨-, blockLength, count, hblockRead, hcountRead, rfl, hle, rfl⟩
  · rw [hvisible] at hinvisible
    cases hinvisible
  · dsimp only at hcounted hblock
    obtain ⟨hmoved, hstores⟩ := elements_reproduced hportable hgapless hcovers htexts hlaid hwf
      ih contents ha _ (u.moved g.dimension.encodedLength) rfl hu hblock
      (hcounted.trans (Nat.zero_add _).symm) helements
    rw [hmoved, Window.moved_moved]
    refine ⟨rfl, ?_⟩
    intro base' size w hversion _ hr
    obtain ⟨view, rfl, hoffset, hindex, hs₁, hroom, hheaded⟩ :=
      store_group_headed hk (hversion ▸ hsince) hg hcount hr
    set w₁ := view.headed (w.moved view.definition.dimension.encodedLength) contents.length
      with hw₁
    have hfit : view.headerOffset + view.definition.dimension.encodedLength ≤
        (w.moved view.definition.dimension.encodedLength).bytes.length := by
      rw [hoffset]
      exact hr.front_le
    obtain ⟨it, hstore, hs, hreads⟩ := hstores (view.counted contents.length) w₁
      (hs₁.version_eq.trans hversion) rfl
      (by simp only [GroupView.counted, hindex, Nat.zero_add]) hroom
    refine ⟨it.window, hheaded it hstore, (hs₁.append hs).of_nil [f] base', ?_⟩
    intro v hv
    have hcopy := hv.nil 0
    -- The header is written anew from the schema and the count, and these are what was read of it.
    have hheaderSlice : w₁.bytes.slice w.position view.definition.dimension.encodedLength =
        u.bytes.slice u.position view.definition.dimension.encodedLength := by
      rw [hw₁, ← hoffset, ← hcounted]
      exact GroupView.slice_headed_of_read hg hheader hfit hu hle hblockRead hcountRead hblock
    have hfirst : Reproduced [] 0 0 view.definition.dimension.encodedLength u v := by
      refine ⟨by simp, ?_⟩
      have hbehind := (Copied.left [] hcopy hs₁ hs (by simp) (by simp)).behind
      rw [hcopy.position_eq, hbehind.slice_eq, hheaderSlice]
    have hwhole := hfirst.append (hreads _ (Copied.right [] hcopy hs₁))
    exact .of_behind (isStored_of_variable (isFixed_group hk)) hwhole.behind

theorem reproduces : TableInduction Field.Reproduces ReproducesFields where
  type := Field.reproduces_type
  enum := Field.reproduces_enum
  set := Field.reproduces_set
  composite := Field.reproduces_composite
  group := Field.reproduces_group
  data := Field.reproduces_data
  nil := by
    intro base contents u _ _ _ _ _ ha _ _
    cases contents with
    | nil =>
      refine ⟨rfl, ?_⟩
      intro base' size w _ _ _
      exact RoundTrips.of_nothing rfl fun v _ => ⟨by simp, rfl⟩
    | cons content contents => cases ha
  cons f rest hf ih := by
    intro base contents u hportable hgapless hwf hu hwithin ha hpadded hshows
    cases contents with
    | nil => cases ha
    | cons content contents =>
      obtain ⟨hportable, hportableRest⟩ := portableFields_cons.mp hportable
      obtain ⟨hgapless, hgaplessRest⟩ := gaplessFields_cons.mp hgapless
      obtain ⟨hwf, hwfRest⟩ := wellFormedFields_cons.mp hwf
      obtain ⟨hwithin, hwithinRest⟩ := List.forall_mem_cons.mp hwithin
      obtain ⟨hpadded, hpaddedRest⟩ := List.forall_mem_cons.mp hpadded
      rw [walkFields_cons] at hshows ⊢
      obtain ⟨hmoved, hstores⟩ := hf base content u hportable hgapless hwf hu hwithin ha.1 hpadded
        hshows.1
      rw [hmoved] at hshows ⊢
      obtain ⟨hmovedRest, hstoresRest⟩ := ih base contents (u.moved (f.wireLength content))
        hportableRest hgaplessRest hwfRest hu hwithinRest ha.2 hpaddedRest hshows.2
      rw [hmovedRest, Window.moved_moved]
      refine ⟨rfl, ?_⟩
      intro base' size w hversion hlaid hr
      exact (RoundTrips.cons hlaid hr
        (fun hin hroom => hstores base' size w hversion hin hroom)
        (fun w₁ hversion₁ hlaidRest hroom => hstoresRest base' size w₁
          (hversion₁.trans hversion) hlaidRest hroom)).mono fun v hv => hv.1.append hv.2

end SimpleBinary
