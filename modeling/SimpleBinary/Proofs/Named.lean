import SimpleBinary.Field.Entry
import SimpleBinary.Message.Basic
import SimpleBinary.Proofs.Typed

namespace SimpleBinary

/-! ### What is done with a field that was found -/

namespace Entry

def mismatch {α : Type} (e : Entry) : Action Window α :=
  throw (.kindMismatch e.name)

def value : Entry → Action Window Value
  | type b => Action.query b.value
  | e => e.mismatch

def value? : Entry → Action Window (Option Value)
  | type b => do
    if ← Action.query b.present then return some (← Action.query b.value)
    return none
  | e => e.mismatch

def raw : Entry → Action Window UInt64
  | enum b => Action.query b.enumRaw
  | e => e.mismatch

def bits : Entry → Action Window BitSet
  | set b => Action.query b.bits
  | e => e.mismatch

def view : Entry → Action Window CompositeView
  | composite c => return c
  | e => e.mismatch

def elements : Entry → Action Window GroupView
  | group g => return g
  | e => e.mismatch

def payload : Entry → Action Window Bytes
  | data d => d.value
  | e => e.mismatch

def setValue (v : Value) : Entry → Action Window Unit
  | type b => b.setValue v
  | e => e.mismatch

def setValue? : Option Value → Entry → Action Window Unit
  | some v, e => e.setValue v
  | none, type b => b.reset
  | none, e => e.mismatch

def setRaw (raw : UInt64) : Entry → Action Window Unit
  | enum b => b.setEnumRaw raw
  | e => e.mismatch

def setBits (s : BitSet) : Entry → Action Window Unit
  | set b => b.setBits s
  | e => e.mismatch

def setPayload (bytes : Bytes) : Entry → Action Window Unit
  | data d => d.setValue bytes
  | e => e.mismatch

def resetCount (count : Nat) : Entry → Action Window GroupView
  | group g => Iteration.run g do
    Iteration.resetCount count
    return (← get).group
  | e => e.mismatch

end Entry

/-! ### Fields found by name -/

structure Reaches (access : Action Window Entry) (w : Window) (bound : Except Error Binding)
    (f : Field) : Prop where
  access_eq : access w = (liftM bound >>= Binding.entry) w
  field_eq : ∀ b, bound = .ok b → b.field = f

theorem Block.reaches {b : Block} {name : String} {f : Field}
    (h : Field.named? b.fields name = some f) (w : Window) :
    Reaches (b.entryNamed name) w (.ok (b.bind w.version f)) f := by
  have hfield : b.fieldNamed name = .ok f := by rw [fieldNamed, h]
  constructor
  · rw [entryNamed, hfield]
    rfl
  · rintro _ ⟨⟩
    rfl

theorem Message.reaches {m : Message} {name : String} {f : Field}
    (h : Field.named? m.definition.fields name = some f) :
    Reaches (m.body.entryNamed name) m.window (.ok (m.bind f)) f :=
  Block.reaches h m.window

theorem Iteration.reaches {it : Iteration} {name : String} {f : Field}
    (h : Field.named? it.group.definition.fields name = some f) :
    Reaches (it.group.entryNamed name) it.window (it.bind f) f := by
  unfold GroupView.entryNamed Iteration.bind GroupView.element
  cases it.group.current with
  | some base => exact Block.reaches (b := ⟨base, _, _⟩) h it.window
  | none =>
    refine ⟨rfl, ?_⟩
    rintro _ ⟨⟩

namespace Reaches

variable {access : Action Window Entry} {w : Window} {bound : Except Error Binding} {f : Field}
  {t : TypeDef} {α β : Type} [Element α]

theorem bind_eq (h : Reaches access w bound f) (use : Entry → Action Window β)
    (action : Binding → Action Window β)
    (hu : ∀ b, b.field = f → (b.entry >>= use) w = action b w) :
    (access >>= use) w = (liftM bound >>= action) w := by
  have haccess := h.access_eq
  cases hbound : bound with
  | error e =>
    rw [hbound] at haccess
    rw [Action.bind_apply, haccess]
    rfl
  | ok b =>
    rw [hbound] at haccess
    have hentry : access w = b.entry w := haccess
    have hused := hu b (h.field_eq b hbound)
    rw [Action.bind_apply, hentry, ← Action.bind_apply, hused]
    rfl

theorem query_eq (h : Reaches access w bound f) (use : Entry → Action Window β)
    (look : Binding → Except Error β)
    (hu : ∀ b, b.field = f → (b.entry >>= use) w = (look b, w)) :
    (access >>= use) w = (bound >>= look, w) := by
  rw [h.bind_eq use (fun b _ => (look b, w)) hu]
  cases bound <;> rfl

end Reaches

structure Field.Numbers (f : Field) (t : TypeDef) (α : Type) [Element α] : Prop where
  kind : f.kind = .type t
  single : t.length = 1
  element : ElementOf α t.primitive
  whole : t.primitive.isFloat = false
  null : Element.toScalar (Element.ofScalar t.null : α) = t.null
  stored : f.presence ≠ .constant

namespace Reaches

variable {access : Action Window Entry} {w : Window} {bound : Except Error Binding} {f : Field}
  {t : TypeDef} {α : Type} [Element α]

theorem entry_type {b : Binding} (hk : b.field.kind = .type t) : b.entry = pure (.type b) := by
  rw [Binding.entry, hk]

theorem entry_enum {b : Binding} {e : EnumDef} (hk : b.field.kind = .enum e) :
    b.entry = pure (.enum b) := by
  rw [Binding.entry, hk]

theorem entry_set {b : Binding} {s : SetDef} (hk : b.field.kind = .set s) :
    b.entry = pure (.set b) := by
  rw [Binding.entry, hk]

theorem untyped (h : Reaches access w bound f) (hk : f.kind = .type t) :
    (access >>= Entry.value) w = (bound >>= fun b => b.value w, w) := by
  apply h.query_eq
  rintro b rfl
  rw [entry_type hk, pure_bind]
  rfl

theorem value_of (h : Reaches access w bound f) (hk : f.kind = .type t)
    (hv : ∀ b : Binding, b.field = f → b.value w = (b.scalar α w).map Value.ofElement) :
    (access >>= Entry.value) w =
      ((bound >>= fun b => b.scalar α w).map Value.ofElement, w) := by
  rw [h.untyped hk]
  cases hbound : bound with
  | error e => rfl
  | ok b => exact congrArg (·, w) (hv b (h.field_eq b hbound))

section

variable (h : Reaches access w bound f) (hf : f.Numbers t α)
include h hf

theorem value :
    (access >>= Entry.value) w =
      ((bound >>= fun b => b.scalar α w).map Value.ofElement, w) := by
  have := hf.element
  apply h.value_of hf.kind
  rintro b rfl
  exact Binding.value_eq_scalar hf.kind hf.stored hf.single hf.null

theorem value? :
    (access >>= Entry.value?) w =
      ((bound >>= fun b => b.scalar? α w).map (Option.map Value.ofElement), w) := by
  have := hf.element
  have hread := h.query_eq Entry.value?
    (fun b => (b.scalar? α w).map (Option.map Value.ofElement)) ?_
  · rw [hread]
    cases bound <;> rfl
  · rintro b rfl
    have hvalue := Binding.value_eq_scalar (w := w) hf.kind hf.stored hf.single hf.null
    rw [entry_type hf.kind, pure_bind]
    simp only [Entry.value?, Action.bind_apply, Action.query_apply, Binding.scalar?]
    cases b.present w with
    | error e => rfl
    | ok present =>
      cases present with
      | false => rfl
      | true =>
        simp only [if_true, Action.bind_apply, Action.query_apply, hvalue]
        cases b.scalar α w <;> rfl

theorem setValue (v : α) :
    (access >>= Entry.setValue (.ofElement v)) w = (liftM bound >>= (·.setScalar v)) w := by
  have := hf.element
  apply h.bind_eq
  rintro b rfl
  rw [entry_type hf.kind, pure_bind, Entry.setValue,
    Binding.setScalar_eq_setValue hf.kind hf.single hf.whole]

theorem setValue? (v? : Option α) :
    (access >>= Entry.setValue? (v?.map .ofElement)) w =
      (liftM bound >>= (·.setScalar? v?)) w := by
  cases v? with
  | some v => exact h.setValue hf v
  | none =>
    apply h.bind_eq
    rintro b rfl
    rw [entry_type hf.kind, pure_bind]
    rfl

end

theorem text (h : Reaches access w bound f) (hk : f.kind = .type t) (ht : t.isText)
    (hc : ∀ s, f.constant ≠ some (.scalar s)) :
    (access >>= Entry.value) w = ((bound >>= fun b => b.text w).map Value.text, w) := by
  rw [h.untyped hk]
  cases hbound : bound with
  | error e => rfl
  | ok b =>
    obtain rfl := h.field_eq b hbound
    have hconstant (s : Scalar) : b.constant? ≠ .ok (some (.scalar s)) := by
      unfold Binding.constant?
      split
      · cases hcase : b.field.constant with
        | none => rintro ⟨⟩
        | some c =>
          rintro ⟨⟩
          exact hc s hcase
      · rintro ⟨⟩
    exact congrArg (·, w) (Binding.value_eq_text hk ht hconstant)

theorem setText (h : Reaches access w bound f) (hk : f.kind = .type t) (ht : t.isText)
    (characters : Bytes) :
    (access >>= Entry.setValue (.text characters)) w =
      (liftM bound >>= (·.setText characters)) w := by
  apply h.bind_eq
  rintro b rfl
  rw [entry_type hk, pure_bind, Entry.setValue,
    Binding.setText_eq_setValue hk (TypeDef.primitive_of_isText ht)]

theorem setArray (h : Reaches access w bound f) (hk : f.kind = .type t) [ElementOf α t.primitive]
    (hp : f.presence ≠ .constant) (values : List α) :
    (access >>= Entry.setValue (.array ⟨t.primitive, elementBytes values⟩)) w =
      (liftM bound >>= (·.setArray values)) w := by
  apply h.bind_eq
  rintro b rfl
  rw [entry_type hk, pure_bind, Entry.setValue, Binding.setArray_eq_setValue hk hp]

theorem raw (h : Reaches access w bound f) {e : EnumDef} (hk : f.kind = .enum e) :
    (access >>= Entry.raw) w = (bound >>= fun b => b.enumRaw w, w) := by
  apply h.query_eq
  rintro b rfl
  rw [entry_enum hk, pure_bind]
  rfl

theorem setRaw (h : Reaches access w bound f) {e : EnumDef} (hk : f.kind = .enum e)
    (raw : UInt64) :
    (access >>= Entry.setRaw raw) w = (liftM bound >>= (·.setEnumRaw raw)) w := by
  apply h.bind_eq
  rintro b rfl
  rw [entry_enum hk, pure_bind]
  rfl

theorem bits (h : Reaches access w bound f) {s : SetDef} (hk : f.kind = .set s) :
    (access >>= Entry.bits) w = (bound >>= fun b => b.bits w, w) := by
  apply h.query_eq
  rintro b rfl
  rw [entry_set hk, pure_bind]
  rfl

theorem setBits (h : Reaches access w bound f) {s : SetDef} (hk : f.kind = .set s)
    (set : BitSet) :
    (access >>= Entry.setBits set) w = (liftM bound >>= (·.setBits set)) w := by
  apply h.bind_eq
  rintro b rfl
  rw [entry_set hk, pure_bind]
  rfl

theorem view (h : Reaches access w bound f) {c : CompositeDef} (hk : f.kind = .composite c) :
    (access >>= Entry.view) w = (bound >>= CompositeView.ofBinding, w) := by
  apply h.query_eq
  rintro b rfl
  rw [Binding.entry, CompositeView.ofBinding, hk]
  rfl

theorem elements (h : Reaches access w bound f) {g : GroupDef} (hk : f.kind = .group g) :
    (access >>= Entry.elements) w = (liftM bound >>= GroupView.ofBinding) w := by
  apply h.bind_eq
  rintro b rfl
  rw [Binding.entry, GroupView.ofBinding, hk]
  simp only [bind_assoc, pure_bind, Entry.elements, bind_pure]

theorem resetCount (h : Reaches access w bound f) {g : GroupDef} (hk : f.kind = .group g)
    (count : Nat) :
    (access >>= Entry.resetCount count) w =
      (liftM bound >>= fun b => do
        let view ← GroupView.ofBinding b
        Iteration.run view do
          Iteration.resetCount count
          return (← get).group) w := by
  apply h.bind_eq
  rintro b rfl
  rw [Binding.entry, GroupView.ofBinding, hk]
  simp only [bind_assoc, pure_bind, Entry.resetCount]

theorem payload (h : Reaches access w bound f) {d : DataDef} (hk : f.kind = .data d) :
    (access >>= Entry.payload) w =
      (liftM bound >>= fun b => (do (← DataView.ofBinding b).value : Action Window Bytes)) w := by
  apply h.bind_eq
  rintro b rfl
  rw [Binding.entry, DataView.ofBinding, hk]
  rfl

theorem setPayload (h : Reaches access w bound f) {d : DataDef} (hk : f.kind = .data d)
    (bytes : Bytes) :
    (access >>= Entry.setPayload bytes) w =
      (liftM bound >>= fun b =>
        (do (← DataView.ofBinding b).setValue bytes : Action Window Unit)) w := by
  apply h.bind_eq
  rintro b rfl
  rw [Binding.entry, DataView.ofBinding, hk]
  rfl

end Reaches

end SimpleBinary
