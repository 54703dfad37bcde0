import Mathlib.Data.List.Find
import SimpleBinary.Market.Schema
import SimpleBinary.Proofs.Cells
import SimpleBinary.Proofs.Onward

/-!
Presence and reset of a field look at one and the same place: that of the field at the foot of its
first members. A reset stores there what presence takes for absent.
-/

namespace SimpleBinary

theorem Primitive.null_survives (p : Primitive) :
    p.equal (p.decode (p.encode p.null)) p.null = true := by
  cases p <;> decide

structure Sentinel where
  primitive : Primitive
  null : Scalar
  count : Nat
  isNull : Scalar → Bool

namespace Sentinel

def Survives (s : Sentinel) : Prop :=
  0 < s.count ∧ s.isNull (s.primitive.decode (s.primitive.encode s.null)) = true

def StoredAt (s : Sentinel) (w : Window) (offset index : Nat) : Prop :=
  ∃ value, w.readScalar (offset + index * s.primitive.size) s.primitive = .ok value ∧
    s.isNull value = true

end Sentinel

namespace Field

def sentinel? (f : Field) : Option Sentinel :=
  match f.kind with
  | .type t => some ⟨t.primitive, t.null, t.length, fun value => t.primitive.equal value t.null⟩
  | .enum e => some ⟨e.encoding, .uint e.null, 1, fun value => value.toUInt64 == e.null⟩
  | _ => none

/-- The field and its first members, down to the one that is no composite. -/
def descent (version : UInt16) : Field → Nat → Bool → List Binding
  | f@⟨_, _, _, .composite ⟨_, first :: _, _⟩, _, _, _⟩, offset, visible =>
    ⟨f, offset, visible⟩ ::
      first.descent version (wordOf (offset + first.offset)) (visible && first.inVersion version)
  | f, offset, visible => [⟨f, offset, visible⟩]

def refusal (version : UInt16) (f : Field) : Error :=
  if f.inVersion version then .resetNotAllowed f.name else f.notInVersion version

end Field

namespace Binding

def descent (version : UInt16) (b : Binding) : List Binding :=
  b.field.descent version b.offset b.visible

def firstMember? (version : UInt16) (b : Binding) : Option Binding :=
  match b.field.kind with
  | .composite c => c.fields.head?.map fun first => first.bindAt b.offset b.visible version
  | _ => none

def Resettable (version : UInt16) (b : Binding) : Prop :=
  b.field.presence = .optional ∧ b.field.inVersion version = true

instance (version : UInt16) (b : Binding) : Decidable (b.Resettable version) :=
  inferInstanceAs (Decidable (_ ∧ _))

end Binding

namespace Field

section

variable {f : Field} {s : Sentinel} {w : Window} {offset : Nat}

theorem sentinel?_eq_some (h : f.sentinel? = some s) :
    (∃ t, f.kind = .type t ∧
      s = ⟨t.primitive, t.null, t.length, fun value => t.primitive.equal value t.null⟩) ∨
    (∃ e, f.kind = .enum e ∧
      s = ⟨e.encoding, .uint e.null, 1, fun value => value.toUInt64 == e.null⟩) := by
  unfold sentinel? at h
  cases hk : f.kind with
  | type t =>
    rw [hk] at h
    exact .inl ⟨t, rfl, (Option.some.inj h).symm⟩
  | enum e =>
    rw [hk] at h
    exact .inr ⟨e, rfl, (Option.some.inj h).symm⟩
  | _ =>
    rw [hk] at h
    cases h

theorem absent_of_sentinel (h : f.sentinel? = some s) (hp : f.presence ≠ .constant)
    (hword : f.extent < UInt64.size) :
    f.absent = (List.replicate s.count (s.primitive.encode s.null)).flatten := by
  rcases sentinel?_eq_some h with ⟨t, hk, rfl⟩ | ⟨e, hk, rfl⟩
  · rw [extent_type hk hp] at hword
    exact absent_type hk hword
  · rw [absent, hk]
    exact (List.append_nil _).symm

theorem isPlain_of_sentinel (h : f.sentinel? = some s) : f.isPlain := by
  rw [isPlain]
  rcases sentinel?_eq_some h with ⟨t, hk, -⟩ | ⟨e, hk, -⟩
  · rw [hk]
  · rw [hk]

theorem storedAt_of_sentinel (h : f.sentinel? = some s) :
    f.storedAt w offset = (w.readScalar offset s.primitive).map fun value => !s.isNull value := by
  rw [storedAt]
  rcases sentinel?_eq_some h with ⟨t, hk, rfl⟩ | ⟨e, hk, rfl⟩
  · rw [hk]
    dsimp only
    cases w.readScalar offset t.primitive <;> rfl
  · rw [hk]
    dsimp only
    cases w.readScalar offset e.encoding <;> rfl

theorem storedAt_eq_false_iff (h : f.sentinel? = some s) :
    f.storedAt w offset = .ok false ↔ s.StoredAt w offset 0 := by
  rw [storedAt_of_sentinel h, Sentinel.StoredAt, Nat.zero_mul, Nat.add_zero]
  cases w.readScalar offset s.primitive with
  | error e => simp [Except.map]
  | ok value => simp [Except.map]

theorem storeAbsent_of_isPlain (hf : f.isPlain) :
    f.storeAbsent offset w = Window.write offset f.absent w := by
  have hsettle := @Binding.storeAbsent_settle ⟨f, offset, true⟩ w f none (by
    intro c hk
    rw [isPlain, hk] at hf
    cases hf)
  rw [editAbsent_of_isPlain hf, Binding.settle_some] at hsettle
  exact hsettle

theorem storedAt_written (h : f.sentinel? = some s) (hs : s.Survives)
    (hp : f.presence ≠ .constant) (hword : f.extent < UInt64.size)
    (hle : offset + f.absent.length ≤ w.limit) (hw : w.limit ≤ w.bytes.length) {index : Nat}
    (hi : index < s.count) : s.StoredAt (w.written offset f.absent) offset index := by
  have habsent := absent_of_sentinel h hp hword
  have hlength : f.absent.length = s.count * s.primitive.size := by
    simp [habsent]
  have hstop : index * s.primitive.size + s.primitive.size ≤ f.absent.length := by
    rw [hlength, ← Nat.succ_mul]
    exact Nat.mul_le_mul_right _ hi
  have hread := Window.read_of_write hw (Window.write_of_le hle)
  have hslice := slice_flatten_replicate (s.primitive.encode s.null) hi
  rw [Primitive.length_encode, ← habsent] at hslice
  have hcell := Window.read_part hread hstop
  rw [hslice] at hcell
  exact ⟨_, Window.readScalar_of_read hcell, hs.2⟩

end

end Field

theorem CompositeView.binding_of_ofBinding {b : Binding} {view : CompositeView}
    (h : ofBinding b = .ok view) : view.binding = b := by
  unfold ofBinding at h
  cases hk : b.field.kind with
  | composite c =>
    rw [hk] at h
    cases h
    rfl
  | _ =>
    rw [hk] at h
    cases h

namespace Binding

variable {version : UInt16} {b first foot : Binding} {w : Window}

theorem descent_of_firstMember (h : b.firstMember? version = some first) :
    b.descent version = b :: first.descent version := by
  obtain ⟨⟨name, id, start, kind, presence, constant, since⟩, offset, visible⟩ := b
  cases kind with
  | composite c =>
    obtain ⟨cname, fields, length⟩ := c
    cases fields with
    | nil => cases h
    | cons f rest =>
      cases h
      rfl
  | _ => cases h

theorem descent_of_foot (h : b.firstMember? version = none) : b.descent version = [b] := by
  obtain ⟨⟨name, id, start, kind, presence, constant, since⟩, offset, visible⟩ := b
  cases kind with
  | composite c =>
    obtain ⟨cname, fields, length⟩ := c
    cases fields with
    | nil => rfl
    | cons f rest => cases h
  | _ => rfl

theorem firstMember?_eq_some (h : b.firstMember? version = some first) :
    ∃ c f, b.field.kind = .composite c ∧ f ∈ c.fields.head? ∧
      first = f.bindAt b.offset b.visible version := by
  unfold firstMember? at h
  cases hk : b.field.kind with
  | composite c =>
    rw [hk] at h
    obtain ⟨f, hf, rfl⟩ := Option.map_eq_some_iff.mp h
    exact ⟨c, f, rfl, hf, rfl⟩
  | _ =>
    rw [hk] at h
    cases h

theorem descent_induction (version : UInt16) {P : Binding → Prop}
    (step : ∀ b : Binding, (∀ first, b.firstMember? version = some first → P first) → P b)
    (b : Binding) : P b := by
  have hfield : ∀ f : Field, ∀ offset visible, P ⟨f, offset, visible⟩ := by
    intro f
    induction f using Field.first_member_induction with
    | step f ih =>
      intro offset visible
      apply step
      intro first hfirst
      obtain ⟨c, member, hk, hmember, rfl⟩ := firstMember?_eq_some hfirst
      exact ih c hk member hmember _ _
  exact hfield b.field b.offset b.visible

theorem storedAt_of_firstMember (h : b.firstMember? version = some first) :
    b.field.storedAt w b.offset = first.field.presentAt w first.offset := by
  obtain ⟨c, f, hk, hf, rfl⟩ := firstMember?_eq_some h
  obtain ⟨rest, hfields⟩ := List.head?_eq_some_iff.mp hf
  rw [Field.storedAt, hk]
  dsimp only
  rw [hfields]
  rfl

theorem storeAbsent_of_firstMember (h : b.firstMember? version = some first) :
    b.field.storeAbsent b.offset = first.field.resetAt first.offset := by
  obtain ⟨c, f, hk, hf, rfl⟩ := firstMember?_eq_some h
  obtain ⟨rest, hfields⟩ := List.head?_eq_some_iff.mp hf
  rw [Field.storeAbsent, hk]
  dsimp only
  rw [hfields]
  rfl

theorem requireOptional_of_resettable (h : b.Resettable w.version) :
    b.field.requireOptional w = (.ok ⟨⟩, w) := by
  have hv : ¬ w.version < b.field.since := UInt16.not_lt.mpr (of_decide_eq_true h.2)
  simp only [Field.requireOptional, Action.bind_apply, Action.get_apply, if_neg hv, h.1, ne_eq,
    not_true_eq_false, if_false, Action.pure_apply]

theorem requireOptional_of_not_resettable (h : ¬ b.Resettable w.version) :
    b.field.requireOptional w = (.error (b.field.refusal w.version), w) := by
  by_cases hv : w.version < b.field.since
  · have hout : b.field.inVersion w.version = false := decide_eq_false (UInt16.not_le.mpr hv)
    simp only [Field.requireOptional, Action.bind_apply, Action.get_apply, if_pos hv,
      Action.throw_apply, Field.refusal, hout, Bool.false_eq_true, if_false]
  · have hin : b.field.inVersion w.version = true := decide_eq_true (UInt16.not_lt.mp hv)
    have hp : b.field.presence ≠ .optional := fun hp => h ⟨hp, hin⟩
    simp only [Field.requireOptional, Action.bind_apply, Action.get_apply, if_neg hv, if_pos hp,
      Action.throw_apply, Field.refusal, hin, if_true]

theorem presentAt_of_resettable (h : b.Resettable w.version) :
    b.field.presentAt w b.offset = b.field.storedAt w b.offset := by
  rw [Field.presentAt_eq, if_neg (UInt16.not_lt.mpr (of_decide_eq_true h.2)),
    if_neg (not_not.mpr h.1)]

theorem descent_eq_cons (version : UInt16) (b : Binding) :
    ∃ rest, b.descent version = b :: rest := by
  cases hfirst : b.firstMember? version with
  | none => exact ⟨[], descent_of_foot hfirst⟩
  | some first => exact ⟨_, descent_of_firstMember hfirst⟩

theorem mem_descent (version : UInt16) (b : Binding) : b ∈ b.descent version := by
  obtain ⟨rest, hrest⟩ := descent_eq_cons version b
  rw [hrest]
  exact List.mem_cons_self

theorem getLast?_descent (h : b.firstMember? version = some first) :
    (b.descent version).getLast? = (first.descent version).getLast? := by
  rw [descent_of_firstMember h,
    List.getLast?_cons_of_ne_nil (List.ne_nil_of_mem (mem_descent version first))]

theorem resetAt_of_resettable (b : Binding) (h : ∀ c ∈ b.descent w.version, c.Resettable w.version)
    (hfoot : (b.descent w.version).getLast? = some foot) :
    b.field.resetAt b.offset w = foot.field.storeAbsent foot.offset w := by
  induction b using descent_induction w.version with
  | step b ih =>
    cases hfirst : b.firstMember? w.version with
    | none =>
      rw [descent_of_foot hfirst] at h hfoot
      obtain rfl : b = foot := Option.some.inj hfoot
      have hb := h b List.mem_cons_self
      rw [Field.resetAt_eq, Action.bind_of_ok (requireOptional_of_resettable hb)]
    | some first =>
      rw [getLast?_descent hfirst] at hfoot
      rw [descent_of_firstMember hfirst] at h
      obtain ⟨hb, hrest⟩ := List.forall_mem_cons.mp h
      rw [Field.resetAt_eq, Action.bind_of_ok (requireOptional_of_resettable hb),
        storeAbsent_of_firstMember hfirst, ih first hfirst hrest hfoot]

theorem resetAt_of_refused (b : Binding) {c : Binding} (h : (b.descent w.version).find?
      (fun c => decide (¬ c.Resettable w.version)) = some c) :
    b.field.resetAt b.offset w = (.error (c.field.refusal w.version), w) := by
  induction b using descent_induction w.version with
  | step b ih =>
    by_cases hb : b.Resettable w.version
    · cases hfirst : b.firstMember? w.version with
      | none =>
        rw [descent_of_foot hfirst, List.find?_cons_of_neg (by simpa using hb)] at h
        cases h
      | some first =>
        rw [descent_of_firstMember hfirst, List.find?_cons_of_neg (by simpa using hb)] at h
        rw [Field.resetAt_eq, Action.bind_of_ok (requireOptional_of_resettable hb),
          storeAbsent_of_firstMember hfirst, ih first hfirst h]
    · have hhead : (b.descent w.version).find? (fun c => decide (¬ c.Resettable w.version)) =
          some b := by
        obtain ⟨rest, hrest⟩ := descent_eq_cons w.version b
        rw [hrest, List.find?_cons_of_pos (by simpa using hb)]
      rw [hhead] at h
      cases h
      rw [Field.resetAt_eq, Action.bind_of_error (requireOptional_of_not_resettable hb)]

theorem presentAt_of_descent (b : Binding) (h : ∀ c ∈ b.descent w.version, c.Resettable w.version)
    (hfoot : (b.descent w.version).getLast? = some foot) :
    ∀ c ∈ b.descent w.version,
      c.field.presentAt w c.offset = foot.field.storedAt w foot.offset := by
  induction b using descent_induction w.version with
  | step b ih =>
    cases hfirst : b.firstMember? w.version with
    | none =>
      rw [descent_of_foot hfirst] at h hfoot ⊢
      obtain rfl : b = foot := Option.some.inj hfoot
      intro c hc
      obtain rfl := List.mem_singleton.mp hc
      exact presentAt_of_resettable (h c hc)
    | some first =>
      rw [getLast?_descent hfirst] at hfoot
      rw [descent_of_firstMember hfirst] at h ⊢
      obtain ⟨hb, hrest⟩ := List.forall_mem_cons.mp h
      have hmembers := ih first hfirst hrest hfoot
      intro c hc
      rcases List.mem_cons.mp hc with rfl | hc
      · rw [presentAt_of_resettable hb, storedAt_of_firstMember hfirst,
          hmembers first (mem_descent _ first)]
      · exact hmembers c hc

structure ResetsTo (b foot : Binding) (s : Sentinel) (w : Window) : Prop where
  succeeds_iff : (b.reset w).1 = .ok ⟨⟩ ↔
    (∀ c ∈ b.descent w.version, c.Resettable w.version) ∧
      foot.offset + foot.field.extent ≤ w.limit
  absent_after {w' : Window} (h : b.reset w = (.ok ⟨⟩, w')) (c : Binding)
    (hc : c ∈ b.descent w.version) : c.present w' = .ok false ∧
      ∀ view, CompositeView.ofBinding c = .ok view → view.present w' = .ok false
  null_after {w' : Window} (h : b.reset w = (.ok ⟨⟩, w')) (index : Nat) (hi : index < s.count) :
    s.StoredAt w' foot.offset index
  elsewhere {w' : Window} (h : b.reset w = (.ok ⟨⟩, w')) :
    w.Agrees (fun i => i < foot.offset ∨ foot.offset + foot.field.extent ≤ i) w'
  null_of_absent (h : ∀ c ∈ b.descent w.version, c.Resettable w.version)
    (hp : b.present w = .ok false) : s.StoredAt w foot.offset 0

theorem reset_of_visible (hv : b.visible = true) :
    b.reset w = b.field.resetAt b.offset w := by
  rw [reset, Action.bind_of_ok (requireVisible_of_visible hv)]

theorem resettable_of_reset (hv : b.visible = true) (h : (b.reset w).1 = .ok ⟨⟩) :
    ∀ c ∈ b.descent w.version, c.Resettable w.version := by
  have hnone : (b.descent w.version).find? (fun c => decide (¬ c.Resettable w.version)) = none := by
    cases hfind : (b.descent w.version).find? (fun c => decide (¬ c.Resettable w.version)) with
    | none => rfl
    | some c =>
      rw [reset_of_visible hv, resetAt_of_refused b hfind] at h
      cases h
  intro c hc
  have hnot := List.find?_eq_none.mp hnone c hc
  rw [decide_eq_true_eq] at hnot
  exact not_not.mp hnot

theorem reset_eq_write {s : Sentinel} (hv : b.visible = true)
    (h : ∀ c ∈ b.descent w.version, c.Resettable w.version)
    (hfoot : (b.descent w.version).getLast? = some foot) (hs : foot.field.sentinel? = some s) :
    b.reset w = Window.write foot.offset foot.field.absent w := by
  rw [reset_of_visible hv, resetAt_of_resettable b h hfoot,
    Field.storeAbsent_of_isPlain (Field.isPlain_of_sentinel hs)]

theorem stored_of_resettable (h : foot.Resettable w.version) : foot.field.presence ≠ .constant := by
  simp [h.1]

theorem length_absent_of_resettable {s : Sentinel} (h : foot.Resettable w.version)
    (hs : foot.field.sentinel? = some s) (hword : foot.field.extent < UInt64.size) :
    foot.field.absent.length = foot.field.extent :=
  Field.length_absent (Field.isPlain_of_sentinel hs) (stored_of_resettable h) hword

theorem resetsTo {s : Sentinel} (hw : w.Sound) (hv : b.visible = true)
    (hfoot : (b.descent w.version).getLast? = some foot) (hs : foot.field.sentinel? = some s)
    (hsurvives : s.Survives) (hword : foot.field.extent < UInt64.size) : b.ResetsTo foot s w := by
  have hmem := List.mem_of_getLast? hfoot
  -- Every success is one write of the null value at the foot.
  have hwritten {w' : Window} (h : b.reset w = (.ok ⟨⟩, w')) :
      (∀ c ∈ b.descent w.version, c.Resettable w.version) ∧
        foot.field.absent.length = foot.field.extent ∧
        foot.offset + foot.field.absent.length ≤ w.limit ∧
        w' = w.written foot.offset foot.field.absent := by
    have hresettable := resettable_of_reset hv (by rw [h])
    rw [reset_eq_write hv hresettable hfoot hs] at h
    obtain ⟨hle, rfl⟩ := Window.write_eq_ok h
    exact ⟨hresettable, length_absent_of_resettable (hresettable foot hmem) hs hword, hle,
      rfl⟩
  refine ⟨?_, ?_, ?_, ?_, ?_⟩
  · constructor
    · intro h
      obtain ⟨hresettable, hlength, hle, -⟩ := hwritten (Prod.ext h rfl)
      exact ⟨hresettable, hlength ▸ hle⟩
    · rintro ⟨hresettable, hle⟩
      rw [← length_absent_of_resettable (hresettable foot hmem) hs hword] at hle
      rw [reset_eq_write hv hresettable hfoot hs, Window.write_of_le hle]
  · intro w' h c hc
    obtain ⟨hresettable, -, hle, rfl⟩ := hwritten h
    have hnull := Field.storedAt_written hs hsurvives
      (stored_of_resettable (hresettable foot hmem)) hword hle hw.limit_le hsurvives.1
    have hstored := (Field.storedAt_eq_false_iff hs).mpr hnull
    have hpresent : c.present (w.written foot.offset foot.field.absent) = .ok false := by
      have hat := presentAt_of_descent (w := w.written foot.offset foot.field.absent) b hresettable
        hfoot c hc
      rw [present, hat, hstored, ite_self]
    refine ⟨hpresent, ?_⟩
    rintro view hview
    rw [CompositeView.present, CompositeView.binding_of_ofBinding hview, hpresent]
  · intro w' h index hi
    obtain ⟨hresettable, -, hle, rfl⟩ := hwritten h
    exact Field.storedAt_written hs hsurvives (stored_of_resettable (hresettable foot hmem)) hword
      hle hw.limit_le hi
  · intro w' h
    obtain ⟨-, hlength, hle, rfl⟩ := hwritten h
    rw [← hlength]
    exact .written hw hle fun _ hi => hi
  · intro h hp
    rw [present, if_pos hv, presentAt_of_descent b h hfoot b (mem_descent _ b)] at hp
    exact (Field.storedAt_eq_false_iff hs).mp hp

/-- Where the bytes of the field at the foot can be counted in a word, reset and presence are
dual. -/
theorem reset_and_present (b : Binding) (w : Window) (hw : w.Sound) (hv : b.visible = true) :
    (∀ foot s, (b.descent w.version).getLast? = some foot → foot.field.sentinel? = some s →
      s.Survives → foot.field.extent < UInt64.size → b.ResetsTo foot s w) ∧
    ((∀ c ∈ b.descent w.version, c.field.inVersion w.version) →
      ∀ c, (b.descent w.version).find? (fun c => decide (c.field.presence ≠ .optional)) = some c →
        b.reset w = (.error (.resetNotAllowed c.field.name), w)) := by
  constructor
  · intro foot s hfoot hs hsurvives hword
    exact resetsTo hw hv hfoot hs hsurvives hword
  · intro hin c hc
    have hmem := List.mem_of_find?_eq_some hc
    have hrefused : (b.descent w.version).find? (fun c => decide (¬ c.Resettable w.version)) =
        some c := by
      rw [← hc]
      apply List.find?_congr
      intro d hd
      simp [Resettable, hin d hd]
    rw [reset_of_visible hv, resetAt_of_refused b hrefused, Field.refusal, if_pos (hin c hmem)]

theorem reset_and_present_price :
    ∃ w',
      reset ⟨Market.Entries.Fields.mdEntryPx, 0, true⟩
          ⟨[1, 0, 0, 0, 0, 0, 0, 0], 8, 0, 2, by decide⟩ =
        (.ok ⟨⟩, w') ∧
      present ⟨Market.Entries.Fields.mdEntryPx, 0, true⟩ w' = .ok false ∧
      reset ⟨Market.Entries.Fields.mdEntrySize, 0, true⟩ w' =
        (.error (.resetNotAllowed "mDEntrySize"), w') := by
  have hreset : reset ⟨Market.Entries.Fields.mdEntryPx, 0, true⟩
      ⟨[1, 0, 0, 0, 0, 0, 0, 0], 8, 0, 2, by decide⟩ =
        (.ok ⟨⟩, ⟨[0, 0, 0, 0, 0, 0, 0, 128], 8, 0, 2, by decide⟩) := rfl
  obtain ⟨hprice, -⟩ := reset_and_present ⟨Market.Entries.Fields.mdEntryPx, 0, true⟩
    ⟨[1, 0, 0, 0, 0, 0, 0, 0], 8, 0, 2, by decide⟩ ⟨by decide, by decide⟩ rfl
  obtain ⟨-, hsize⟩ := reset_and_present ⟨Market.Entries.Fields.mdEntrySize, 0, true⟩
    ⟨[0, 0, 0, 0, 0, 0, 0, 128], 8, 0, 2, by decide⟩ ⟨by decide, by decide⟩ rfl
  have hresets := hprice ⟨Market.Composites.mantissa, 0, true⟩ _ rfl rfl
    ⟨by decide, Primitive.null_survives .int64⟩ (by decide)
  obtain ⟨habsent, -⟩ := hresets.absent_after hreset _ (mem_descent _ _)
  exact ⟨_, hreset, habsent, hsize (by decide) _ rfl⟩

end Binding

namespace Market

def depths : Field :=
  (Field.required "depths" 1 0 (.type (.plain "Depths" .uint64 2305843009213693952))).optional

end Market

theorem Binding.reset_of_uncounted_length :
    ∃ (b : Binding) (s : Sentinel), b = ⟨Market.depths, 0, true⟩ ∧ (b.descent 2).getLast? = some b ∧
      b.field.sentinel? = some s ∧ s.Survives ∧ s.count = 2 ^ 61 ∧
      b.reset ⟨[7, 0, 0, 0, 0, 0, 0, 0], 8, 8, 2, by decide⟩ =
        (.ok ⟨⟩, ⟨[7, 0, 0, 0, 0, 0, 0, 0], 8, 8, 2, by decide⟩) ∧
      b.present ⟨[7, 0, 0, 0, 0, 0, 0, 0], 8, 8, 2, by decide⟩ = .ok true :=
  ⟨_, _, rfl, rfl, rfl, ⟨by decide, Primitive.null_survives .uint64⟩, rfl, rfl, rfl⟩

end SimpleBinary
