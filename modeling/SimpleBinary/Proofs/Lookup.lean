import SimpleBinary.Market.Schema
import SimpleBinary.Proofs.Action
import SimpleBinary.Proofs.Session

namespace SimpleBinary

/-! ### Names compared byte by byte -/

theorem sameBytes_iff {a b : Bytes} (h : a.length = b.length) : sameBytes a b = true ↔ a = b := by
  induction a generalizing b with
  | nil => simp [sameBytes, List.length_eq_zero_iff.mp h.symm]
  | cons byte rest ih =>
    cases b with
    | nil => cases h
    | cons byte' rest' =>
      have hrest := ih (Nat.succ.inj h)
      simp only [sameBytes, List.cons.injEq]
      split
      next hne => simp [hne]
      next heq => simp [hrest, Decidable.not_not.mp heq]

theorem utf8_inj {a b : String} : utf8 a = utf8 b ↔ a = b := by
  constructor
  · intro h
    exact String.toByteArray_inj.mp (ByteArray.ext (Array.toList_inj.mp h))
  · exact congrArg utf8

theorem sameText_iff {a b : String} : sameText a b = true ↔ a = b := by
  unfold sameText
  split
  next hne =>
    have : a ≠ b := fun h => hne (congrArg (fun text => (utf8 text).length) h)
    simp [this]
  next heq => rw [sameBytes_iff (Decidable.not_not.mp heq), utf8_inj]

namespace Field

variable {fields : List Field} {name : String} {i : Nat}

theorem indexFrom_eq (name : String) (fields : List Field) (start : Nat) :
    indexFrom name fields start = (fields.findIdx? (·.name == name)).map (start + ·) := by
  induction fields generalizing start with
  | nil => rfl
  | cons f rest ih =>
    rw [indexFrom, List.findIdx?_cons, ih]
    by_cases h : f.name = name
    · rw [if_pos (sameText_iff.mpr h), if_pos (beq_iff_eq.mpr h)]
      rfl
    · rw [if_neg (mt sameText_iff.mp h), if_neg (mt beq_iff_eq.mp h), Option.map_map]
      congr 1
      funext count
      simp only [Function.comp_apply]
      omega

theorem index?_eq_findIdx? : index? fields name = fields.findIdx? (·.name == name) := by
  rw [index?, indexFrom_eq]
  simp

theorem index?_eq_some_iff :
    index? fields name = some i ↔
      (∃ f, fields[i]? = some f ∧ f.name = name) ∧
        ∀ j < i, ∀ f, fields[j]? = some f → f.name ≠ name := by
  rw [index?_eq_findIdx?, List.findIdx?_eq_some_iff_getElem]
  constructor
  · rintro ⟨hi, hname, hbefore⟩
    refine ⟨⟨fields[i], List.getElem?_eq_getElem hi, beq_iff_eq.mp hname⟩, ?_⟩
    intro j hj f hf heq
    obtain ⟨hlt, rfl⟩ := List.getElem?_eq_some_iff.mp hf
    exact hbefore j hj (beq_iff_eq.mpr heq)
  · rintro ⟨⟨f, hf, hname⟩, hbefore⟩
    obtain ⟨hi, rfl⟩ := List.getElem?_eq_some_iff.mp hf
    refine ⟨hi, beq_iff_eq.mpr hname, ?_⟩
    intro j hj heq
    exact hbefore j hj _ (List.getElem?_eq_getElem (Nat.lt_trans hj hi)) (beq_iff_eq.mp heq)

theorem index?_eq_none_iff : index? fields name = none ↔ ∀ f ∈ fields, f.name ≠ name := by
  rw [index?_eq_findIdx?, List.findIdx?_eq_none_iff]
  simp

example :
    let fields := ["ab", "a", "", "a"].map (required · 0 0 (.composite ⟨"", [], 0⟩))
    (index? fields "a", index? fields "", index? fields "abc") = (some 1, some 2, none) :=
  rfl

theorem requireIndex_eq_ok_iff :
    requireIndex fields name = .ok i ↔ index? fields name = some i := by
  unfold requireIndex
  cases index? fields name <;> simp

theorem requireIndex_eq_error_iff {e : SchemaError} :
    requireIndex fields name = .error e ↔ e = .fieldNotFound ∧ index? fields name = none := by
  unfold requireIndex
  cases index? fields name <;> simp [eq_comm]

theorem named?_eq_bind_index? : named? fields name = (index? fields name).bind (fields[·]?) := by
  rw [index?_eq_findIdx?]
  exact List.find?_eq_bind_findIdx?_getElem?

def atIndexOf {σ α : Type} (fields : List Field) (name : String) (use : Nat → Action σ α) :
    Action σ α :=
  match index? fields name with
  | some index => use index
  | none => throw .fieldNotFound

end Field

/-! ### Views at a name and at its index -/

theorem Block.fieldNamed_eq (b : Block) (name : String) :
    b.fieldNamed name =
      match Field.index? b.fields name with
      | some index => b.fieldAt index
      | none => .error .fieldNotFound := by
  rw [fieldNamed, Field.named?_eq_bind_index?]
  cases Field.index? b.fields name <;> rfl

theorem Block.entryNamed_eq (b : Block) (name : String) :
    b.entryNamed name = Field.atIndexOf b.fields name b.entryAt := by
  rw [entryNamed, fieldNamed_eq, Field.atIndexOf]
  cases Field.index? b.fields name <;> rfl

theorem GroupView.entryNamed_eq {g : GroupView} {base : Nat} (h : g.current = some base)
    (name : String) :
    g.entryNamed name = Field.atIndexOf g.definition.fields name g.entryAt := by
  have helement : g.element = .ok ⟨base, g.definition.fields, true⟩ := by rw [element, h]
  have hat : g.entryAt = Block.entryAt ⟨base, g.definition.fields, true⟩ := by
    funext index
    rw [entryAt, helement]
    rfl
  rw [entryNamed, helement, hat]
  exact Block.entryNamed_eq ⟨base, g.definition.fields, true⟩ name

theorem GroupView.entry_of_no_element {g : GroupView} (h : g.current = none) :
    (∀ name, g.entryNamed name = throw (.noCurrentElement g.name)) ∧
      ∀ index, g.entryAt index = throw (.noCurrentElement g.name) := by
  have helement : g.element = .error (.noCurrentElement g.name) := by rw [element, h]
  constructor
  · intro name
    rw [entryNamed, helement]
    rfl
  · intro index
    rw [entryAt, helement]
    rfl

theorem Operation.run_entry (spot : Spot) (s : Session) :
    (Operation.entry spot).run s =
      match s.bind spot with
      | .ok b => Session.onWindow b.entry s
      | .error e => (.error e, s) := by
  simp only [Operation.run, Action.bind_apply, Action.get_apply, Action.lift_apply]
  cases s.bind spot <;> rfl

theorem Session.bind_field {s : Session} {place : Place} {block : Block}
    (h : s.block place = .ok block) (selector : Selector) :
    s.bind (.field place selector) =
      (selector.fieldOf block).map (block.bind s.message.version) := by
  rw [bind, h, Action.ok_bind]
  cases selector.fieldOf block <;> rfl

theorem Session.run_entry_named {s : Session} {place : Place} {block : Block}
    (h : s.block place = .ok block) (name : String) :
    (Operation.entry (.field place (.name name))).run s =
      Field.atIndexOf block.fields name
        (fun index => (Operation.entry (.field place (.index index))).run) s := by
  have hname : Selector.fieldOf (.name name) block = _ := block.fieldNamed_eq name
  rw [Operation.run_entry, bind_field h, hname, Field.atIndexOf]
  cases Field.index? block.fields name with
  | none => rfl
  | some index =>
    change _ = (Operation.entry (.field place (.index index))).run s
    rw [Operation.run_entry, bind_field h]
    rfl

namespace Field

/-- The index that a table gives for a name is the least one of that name, and building a table
fails exactly for a name that it does not have. The field found while the program runs is the one at
the index; and in a message, in a group element and in a composite, however they are reached, the
view found by the name, the error and what becomes of the position are those of the index. -/
theorem name_and_index_agree (fields : List Field) (name : String) :
    (∀ i, index? fields name = some i ↔
      (∃ f, fields[i]? = some f ∧ f.name = name) ∧
        ∀ j < i, ∀ f, fields[j]? = some f → f.name ≠ name) ∧
    (index? fields name = none ↔ ∀ f ∈ fields, f.name ≠ name) ∧
    (∀ i, requireIndex fields name = .ok i ↔ index? fields name = some i) ∧
    (∀ e, requireIndex fields name = .error e ↔ e = .fieldNotFound ∧ index? fields name = none) ∧
    named? fields name = (index? fields name).bind (fields[·]?) ∧
    (∀ b : Block, b.fields = fields → b.entryNamed name = atIndexOf fields name b.entryAt) ∧
    (∀ g : GroupView, g.definition.fields = fields →
      (∀ base, g.current = some base → g.entryNamed name = atIndexOf fields name g.entryAt) ∧
      (g.current = none → g.entryNamed name = throw (.noCurrentElement g.name) ∧
        ∀ i, g.entryAt i = throw (.noCurrentElement g.name))) ∧
    ∀ (s : Session) (place : Place) (block : Block), s.block place = .ok block →
      block.fields = fields →
      (Operation.entry (.field place (.name name))).run s =
        atIndexOf fields name
          (fun index => (Operation.entry (.field place (.index index))).run) s := by
  refine ⟨fun _ => index?_eq_some_iff, index?_eq_none_iff, fun _ => requireIndex_eq_ok_iff,
    fun _ => requireIndex_eq_error_iff, named?_eq_bind_index?, ?_, ?_, ?_⟩
  · rintro b rfl
    exact b.entryNamed_eq name
  · rintro g rfl
    constructor
    · intro base h
      exact GroupView.entryNamed_eq h name
    · intro h
      exact ⟨(GroupView.entry_of_no_element h).1 name, (GroupView.entry_of_no_element h).2⟩
  · rintro s place block hblock rfl
    exact Session.run_entry_named hblock name

theorem name_and_index_agree_snapshot :
    ∃ m, (Wrapping.encode 0 31).wrap Market.Snapshot.definition (List.replicate 31 0) =
        (.ok m, List.replicate 31 0) ∧
      requireIndex Market.Snapshot.definition.fields "noMDEntries" = .ok 5 ∧
      ∃ view s,
        (Operation.entry (.field .body (.index 5))).run ⟨m, []⟩ = (.ok (.group view), s) ∧
        (Operation.entry (.field .body (.name "noMDEntries"))).run ⟨m, []⟩ =
          (.ok (.group view), s) ∧
        m.position = 28 ∧ s.message.position = 31 := by
  obtain ⟨-, -, hrequire, -, -, -, -, hview⟩ :=
    name_and_index_agree Market.Snapshot.definition.fields "noMDEntries"
  have hwrap : (Wrapping.encode 0 31).wrap Market.Snapshot.definition (List.replicate 31 0) =
      (.ok _, List.replicate 31 0) := rfl
  have hindex : index? Market.Snapshot.definition.fields "noMDEntries" = some 5 := rfl
  refine ⟨_, hwrap, (hrequire 5).mpr hindex, _, _, rfl, ?_, rfl, rfl⟩
  rw [hview _ .body _ rfl rfl, atIndexOf, hindex]
  rfl

end Field

end SimpleBinary
