import SimpleBinary.Proofs.Keeping
import SimpleBinary.Proofs.Spans

namespace SimpleBinary

def Selector.brought : Selector → Nat
  | .field f => f.span
  | .index _ | .name _ => 0

mutual

/-- How far the descriptors reach that are named on the way to a place and are of no table. -/
def Place.brought : Place → Nat
  | .body | .element _ => 0
  | .members spot => spot.brought

def Spot.brought : Spot → Nat
  | .header => 0
  | .field place selector => place.brought + selector.brought

end

def Operation.brought {α : Type} : Operation α → Nat
  | .field spot _ | .data spot _ | .entry spot | .group spot => spot.brought
  | .state _ | .next _ | .resetCount _ _ | .skipGroup _ | .rewind | .skip => 0

def Session.brought (steps : List Step) : Nat :=
  (steps.map fun step => step.2.brought).sum

def MessageDef.span (m : MessageDef) : Nat :=
  spanFields (MessageHeader.field :: m.fields)

/-- Every table that fields of the message or of its groups are found in spans so many bytes. -/
structure Session.Spans (n : Nat) (s : Session) : Prop where
  message : s.message.definition.span ≤ n
  groups : ∀ g ∈ s.groups, g.definition.span ≤ n

theorem Selector.span_le {selector : Selector} {block : Block} {f : Field}
    (h : selector.fieldOf block = .ok f) : f.span ≤ spanFields block.fields + selector.brought := by
  cases selector with
  | field f' =>
    cases h
    exact Nat.le_add_left _ _
  | index i =>
    simp only [fieldOf, Block.fieldAt] at h
    cases hat : block.fields[i]? with
    | none =>
      rw [hat] at h
      cases h
    | some f' =>
      rw [hat] at h
      cases h
      exact span_le_spanFields (List.mem_of_getElem? hat)
  | name text =>
    simp only [fieldOf, Block.fieldNamed, Field.named?] at h
    cases hfind : block.fields.find? (·.name == text) with
    | none =>
      rw [hfind] at h
      cases h
    | some f' =>
      rw [hfind] at h
      cases h
      exact span_le_spanFields (List.mem_of_find?_eq_some hfind)

theorem CompositeView.ofBinding_eq_ok {b : Binding} {view : CompositeView}
    (h : CompositeView.ofBinding b = .ok view) :
    ∃ c, b.field.kind = .composite c ∧ view = ⟨b, c⟩ := by
  unfold ofBinding at h
  cases hk : b.field.kind with
  | composite c =>
    rw [hk] at h
    cases h
    exact ⟨c, rfl, rfl⟩
  | _ =>
    rw [hk] at h
    cases h

def GroupView.header (g : GroupView) : Bool × Nat × GroupDef :=
  (g.visible, g.headerOffset, g.definition)

theorem GroupView.definition_of_header {g g' : GroupView} (h : g'.header = g.header) :
    g'.definition = g.definition :=
  congrArg (·.2.2) h

namespace Iteration

theorem keeps_header_next : Keeps (fun it => it.group.header) next :=
  keeps_next.comp fun it => it.group.header

theorem keeps_header_skip : Keeps (fun it => it.group.header) skip :=
  keeps_skip.comp fun it => it.group.header

theorem header_of_stored {x : Action Window Unit} {change : Iteration → Iteration} {it : Iteration}
    (h : ∀ t, (change t).group.header = it.group.header) :
    ((onWindow x >>= fun _ => modify change : Action Iteration Unit) it).2.group.header =
      it.group.header := by
  have hgroup : (onWindow x it).2.group = it.group := rfl
  cases hx : onWindow x it with
  | mk result t =>
    rw [hx] at hgroup
    cases result with
    | ok a =>
      rw [Action.bind_of_ok hx]
      exact h t
    | error e => rw [Action.bind_of_error hx, hgroup]

theorem keeps_header_resetCount (count : Nat) :
    Keeps (fun it => it.group.header) (resetCount count) := by
  intro it
  unfold resetCount
  rw [Action.bind_apply, Action.get_apply]
  simp only [Action.throw_bind]
  split
  · rfl
  split
  · rfl
  split
  · rfl
  exact header_of_stored fun _ => rfl

end Iteration

namespace Session

theorem mem_of_groupAt {s : Session} {group : Nat} {view : GroupView}
    (h : s.groupAt group = .ok view) : view ∈ s.groups := by
  unfold groupAt at h
  cases hat : s.groups[group]? with
  | none =>
    rw [hat] at h
    cases h
  | some g =>
    rw [hat] at h
    cases h
    exact List.mem_of_getElem? hat

theorem groups_of_iterate {α : Type} {steps : Action Iteration α}
    (hs : Keeps (fun it => it.group.header) steps) (group : Nat) (s : Session) :
    ∀ g ∈ (iterate group steps s).2.groups, ∃ g' ∈ s.groups, g.header = g'.header := by
  unfold iterate
  simp only [Action.bind_apply, Action.get_apply, Action.lift_apply]
  cases hview : s.groupAt group with
  | error e => exact fun g hg => ⟨g, hg, rfl⟩
  | ok view =>
    intro g hg
    rcases List.mem_or_eq_of_mem_set hg with hold | rfl
    · exact ⟨g, hold, rfl⟩
    · exact ⟨view, mem_of_groupAt hview, hs ⟨view, s.window⟩⟩

end Session

theorem Operation.groups_run {α : Type} (operation : Operation α) (s : Session) :
    ∀ g ∈ (operation.run s).2.groups, (∃ g' ∈ s.groups, g.header = g'.header) ∨
      ∃ spot b w, operation.brought = spot.brought ∧ s.bind spot = .ok b ∧
        GroupView.ofBinding b s.window = (.ok g, w) := by
  -- Only operations on groups touch the list of groups, and of those only binding adds one.
  have hkept (hk : Keeps Session.groups operation.run) : ∀ g ∈ (operation.run s).2.groups,
      (∃ g' ∈ s.groups, g.header = g'.header) ∨
        ∃ spot b w, operation.brought = spot.brought ∧ s.bind spot = .ok b ∧
          GroupView.ofBinding b s.window = (.ok g, w) := by
    rw [hk s]
    exact fun g hg => .inl ⟨g, hg, rfl⟩
  cases operation with
  | field spot operation =>
    exact hkept (.get_bind fun _ => .bind (.lift _) fun _ _ => rfl)
  | data spot operation =>
    exact hkept (.get_bind fun _ => .bind (.lift _) fun _ => .bind (.lift _) fun _ _ => rfl)
  | entry spot =>
    exact hkept (.get_bind fun _ => .bind (.lift _) fun _ _ => rfl)
  | group spot =>
    intro g hg
    simp only [Operation.run, Action.bind_apply, Action.get_apply, Action.lift_apply,
      Session.onWindow, Action.onPart_apply] at hg
    cases hb : s.bind spot with
    | error e =>
      rw [hb] at hg
      exact .inl ⟨g, hg, rfl⟩
    | ok b =>
      rw [hb] at hg
      dsimp only at hg
      cases hv : GroupView.ofBinding b s.window with
      | mk result w =>
        rw [hv] at hg
        cases result with
        | error e => exact .inl ⟨g, hg, rfl⟩
        | ok view =>
          rcases List.mem_append.mp hg with hold | hnew
          · exact .inl ⟨g, hold, rfl⟩
          · rw [List.mem_singleton.mp hnew]
            exact .inr ⟨spot, b, w, rfl, hb, hv⟩
  | state group => exact hkept (.get_bind fun _ => .lift _)
  | next group =>
    exact fun g hg => .inl (Session.groups_of_iterate Iteration.keeps_header_next group s g hg)
  | resetCount group count =>
    exact fun g hg =>
      .inl (Session.groups_of_iterate (Iteration.keeps_header_resetCount count) group s g hg)
  | skipGroup group =>
    exact fun g hg => .inl (Session.groups_of_iterate Iteration.keeps_header_skip group s g hg)
  | rewind => exact hkept fun _ => rfl
  | skip => exact hkept fun _ => rfl

theorem Session.keeps_definition_iterate {α : Type} (group : Nat) (steps : Action Iteration α) :
    Keeps (fun s => s.message.definition) (iterate group steps) :=
  .get_bind fun _ => .bind (.lift _) fun _ _ => rfl

theorem Operation.keeps_definition {α : Type} (operation : Operation α) :
    Keeps (fun s => s.message.definition) operation.run := by
  cases operation with
  | field => exact .get_bind fun _ => .bind (.lift _) fun _ _ => rfl
  | data => exact .get_bind fun _ => .bind (.lift _) fun _ => .bind (.lift _) fun _ _ => rfl
  | entry => exact .get_bind fun _ => .bind (.lift _) fun _ _ => rfl
  | group =>
    refine .get_bind fun _ => .bind (.lift _) fun _ => ?_
    refine Leads.bind (fun _ => rfl) fun _ => ?_
    exact .bind (.change fun _ => rfl) fun _ => .pure _
  | state => exact .get_bind fun _ => .lift _
  | next | resetCount | skipGroup => exact Session.keeps_definition_iterate _ _
  | rewind => exact fun _ => rfl
  | skip => exact fun s => (congrArg Message.definition (Message.keeps_skip s.message) :)

namespace Session.Spans

variable {n : Nat} {s : Session}

mutual

theorem block (h : s.Spans n) : ∀ place block, s.block place = .ok block →
    spanFields block.fields ≤ n + place.brought
  | .body, block, hb => by
    cases hb
    exact Nat.le_trans (Nat.le_max_right _ _) h.message
  | .element group, block, hb => by
    obtain ⟨view, hview, hb⟩ := Action.except_bind_eq_ok hb
    have hspan := h.groups view (mem_of_groupAt hview)
    unfold GroupView.element at hb
    cases hcurrent : view.current with
    | none =>
      rw [hcurrent] at hb
      cases hb
    | some base =>
      rw [hcurrent] at hb
      cases hb
      exact Nat.le_trans (Nat.le_max_left _ _) hspan
  | .members spot, block, hb => by
    obtain ⟨b, hbinding, hb⟩ := Action.except_bind_eq_ok hb
    obtain ⟨view, hview, hb⟩ := Action.except_bind_eq_ok hb
    cases hb
    obtain ⟨c, hk, rfl⟩ := CompositeView.ofBinding_eq_ok hview
    have hspan := bind h spot b hbinding
    rw [Field.span_composite hk] at hspan
    exact Nat.le_trans (Nat.le_add_left _ _) hspan

theorem bind (h : s.Spans n) : ∀ spot b, s.bind spot = .ok b →
    b.field.span ≤ n + spot.brought
  | .header, b, hb => by
    obtain ⟨view, hview, hb⟩ := Action.except_bind_eq_ok hb
    cases hb
    unfold Message.header at hview
    cases hheader : s.message.headerOffset with
    | none =>
      rw [hheader] at hview
      cases hview
    | some offset =>
      rw [hheader] at hview
      cases hview
      exact Nat.le_trans (Nat.le_max_left _ _) h.message
  | .field place selector, b, hb => by
    obtain ⟨block, hblock, hb⟩ := Action.except_bind_eq_ok hb
    obtain ⟨f, hf, hb⟩ := Action.except_bind_eq_ok hb
    cases hb
    have htable := Spans.block h place block hblock
    have hspan := Selector.span_le hf
    have hbrought : (Spot.field place selector).brought = place.brought + selector.brought := rfl
    have hfield : (block.bind s.message.version f).field = f := rfl
    rw [hfield]
    omega

end

theorem run (h : s.Spans n) {α : Type} (operation : Operation α) :
    (operation.run s).2.Spans (n + operation.brought) where
  message := by
    have hm : (operation.run s).2.message.definition = _ := operation.keeps_definition s
    rw [hm]
    exact Nat.le_add_right_of_le h.message
  groups g hg := by
    rcases operation.groups_run s g hg with ⟨g', hold, hheader⟩ | ⟨spot, b, w, hspot, hb, hbound⟩
    · rw [GroupView.definition_of_header hheader]
      exact Nat.le_add_right_of_le (h.groups g' hold)
    · obtain ⟨d, hk, hbind⟩ := GroupView.ofBinding_eq_ok hbound
      rw [GroupView.definition_of_bind hbind, hspot]
      exact Nat.le_trans (Field.group_span_le hk) (h.bind spot b hb)

end Session.Spans

end SimpleBinary
