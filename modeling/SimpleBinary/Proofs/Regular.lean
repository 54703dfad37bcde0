import SimpleBinary.Proofs.Content
import SimpleBinary.Proofs.Tables

namespace SimpleBinary

mutual

def Field.flat : Field → Bool
  | ⟨_, _, _, .composite c, _, _, _⟩ => c.fields.all Field.isFixed && flatFields c.fields
  | ⟨_, _, _, .group g, _, _, _⟩ => flatFields g.fields
  | _ => true

def flatFields : List Field → Bool
  | [] => true
  | f :: rest => f.flat && flatFields rest

end

mutual

def Field.framed : Field → Bool
  | ⟨_, _, _, .composite c, _, _, _⟩ => framedFields c.fields
  | ⟨_, _, _, .group g, _, _, _⟩ => g.MembersInside && framedFields g.fields
  | ⟨_, _, _, .data d, _, _, _⟩ => d.LengthInside
  | _ => true

def framedFields : List Field → Bool
  | [] => true
  | f :: rest => f.framed && framedFields rest

end

namespace Field

variable {f : Field}

theorem flat_of_fixed (hf : f.isFixed) (hk : ∀ c, f.kind ≠ .composite c) : f.flat := by
  obtain ⟨name, id, offset, kind, presence, constant, since⟩ := f
  cases kind with
  | composite c => exact absurd rfl (hk c)
  | group g => cases hf
  | _ => rfl

theorem flat_composite {c : CompositeDef} (hk : f.kind = .composite c) :
    f.flat ↔ (∀ member ∈ c.fields, member.isFixed) ∧ flatFields c.fields := by
  obtain ⟨name, id, offset, kind, presence, constant, since⟩ := f
  cases hk
  simp only [flat, Bool.and_eq_true, List.all_eq_true]

theorem flat_group {g : GroupDef} (hk : f.kind = .group g) : f.flat ↔ flatFields g.fields := by
  obtain ⟨name, id, offset, kind, presence, constant, since⟩ := f
  cases hk
  rfl

theorem flat_data {d : DataDef} (hk : f.kind = .data d) : f.flat := by
  obtain ⟨name, id, offset, kind, presence, constant, since⟩ := f
  cases hk
  rfl

theorem framed_group {g : GroupDef} (hk : f.kind = .group g) :
    f.framed ↔ g.MembersInside ∧ framedFields g.fields := by
  obtain ⟨name, id, offset, kind, presence, constant, since⟩ := f
  cases hk
  simp only [framed, Bool.and_eq_true, decide_eq_true_eq]

theorem framed_data {d : DataDef} (hk : f.kind = .data d) : f.framed ↔ d.LengthInside := by
  obtain ⟨name, id, offset, kind, presence, constant, since⟩ := f
  cases hk
  exact decide_eq_true_iff

end Field

theorem flatFields_cons {f : Field} {rest : List Field} :
    flatFields (f :: rest) ↔ f.flat ∧ flatFields rest :=
  Bool.and_eq_true_iff

theorem framedFields_cons {f : Field} {rest : List Field} :
    framedFields (f :: rest) ↔ f.framed ∧ framedFields rest :=
  Bool.and_eq_true_iff

theorem flat_of_wellFormed {version : UInt16} :
    TableInduction (fun f => f.wellFormed version → f.flat)
      (fun fields => wellFormedFields version fields → flatFields fields) where
  type f t hk := fun _ =>
    Field.flat_of_fixed (Field.isFixed_of_kind (by simp [hk]) (by simp [hk])) (by simp [hk])
  enum f e hk := fun _ =>
    Field.flat_of_fixed (Field.isFixed_of_kind (by simp [hk]) (by simp [hk])) (by simp [hk])
  set f s hk := fun _ =>
    Field.flat_of_fixed (Field.isFixed_of_kind (by simp [hk]) (by simp [hk])) (by simp [hk])
  composite f c hk ih := by
    intro h
    obtain ⟨_, _, hfixed, hfields⟩ := (Field.wellFormed_composite hk).mp h
    exact (Field.flat_composite hk).mpr ⟨hfixed, ih hfields⟩
  group f g hk ih := by
    intro h
    obtain ⟨_, _, _, hfields⟩ := (Field.wellFormed_group hk).mp h
    exact (Field.flat_group hk).mpr (ih hfields)
  data f d hk := fun _ => Field.flat_data hk
  nil := fun _ => rfl
  cons f rest hf ih := by
    intro h
    obtain ⟨hfield, hfields⟩ := wellFormedFields_cons.mp h
    exact flatFields_cons.mpr ⟨hf hfield, ih hfields⟩

theorem walk_window_of_fixed :
    TableInduction
      (fun f => f.isFixed → f.flat → ∀ base enclosed w, (f.walk base enclosed w).2 = w)
      (fun fields => (∀ f ∈ fields, f.isFixed) → flatFields fields →
        ∀ base enclosed w, (walkFields base enclosed fields w).2 = w) where
  type f t hk := by
    intro _ _ base enclosed w
    rw [Field.walk_type hk]
  enum f e hk := by
    intro _ _ base enclosed w
    rw [Field.walk_enum hk]
  set f s hk := by
    intro _ _ base enclosed w
    rw [Field.walk_set hk]
  composite f c hk ih := by
    intro _ hflat base enclosed w
    obtain ⟨hfixed, hfields⟩ := (Field.flat_composite hk).mp hflat
    rw [Field.walk_composite hk]
    exact ih hfixed hfields _ _ w
  group f g hk _ := by
    intro hfixed
    simp only [Field.isFixed_group hk, Bool.false_eq_true] at hfixed
  data f d hk := by
    intro hfixed
    simp only [Field.isFixed_data hk, Bool.false_eq_true] at hfixed
  nil := fun _ _ _ _ _ => rfl
  cons f rest hf ih := by
    intro hfixed hflat base enclosed w
    obtain ⟨hfirst, hrest⟩ := flatFields_cons.mp hflat
    rw [walkFields_cons, hf (hfixed f List.mem_cons_self) hfirst]
    exact ih (fun g hg => hfixed g (List.mem_cons_of_mem f hg)) hrest base enclosed w

end SimpleBinary
