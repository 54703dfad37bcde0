import SimpleBinary.Proofs.Content

/-!
Steps that store content in the fields of a table and in the bytes behind it: what such a step may
change, what is found afterwards, and how steps follow each other without disturbing what is there.
-/

namespace SimpleBinary

structure Room (base size length : Nat) (w : Window) : Prop where
  block_le : base + size ≤ w.position
  behind_le : w.position + length ≤ w.limit
  limit_le : w.limit ≤ w.bytes.length
  limit_le_max : w.limit ≤ Window.maxPosition

/-- The step from `w` to `w'` changes the stored fields of a table at `base` and the `length` bytes
at the position, which it moves over. -/
structure Stored (fields : List Field) (base length : Nat) (w w' : Window) : Prop where
  limit_eq : w'.limit = w.limit
  version_eq : w'.version = w.version
  position_eq : w'.position = w.position + length
  size_eq : w'.bytes.length = w.bytes.length
  frame : ∀ start size,
    (∀ f ∈ fields, f.isStored → Bytes.Apart start size (base + f.offset) f.extent) →
    Bytes.Apart start size w.position length →
    w'.bytes.slice start size = w.bytes.slice start size

structure Copied (fields : List Field) (base length : Nat) (w w' v : Window) : Prop where
  version_eq : v.version = w.version
  position_eq : v.position = w.position
  fixed : ∀ f ∈ fields, f.isStored → v.Carries w'.bytes (base + f.offset) f.extent
  behind : v.Carries w'.bytes w.position length

/-- From `w` on, `store` changes no more than the fields of a table at `base` and `length` bytes at
the position, and wherever these bytes are found again, `reads` holds. -/
def RoundTrips (fields : List Field) (base length : Nat) (store : Action Window Unit)
    (reads : Window → Prop) (w : Window) : Prop :=
  ∃ w', store w = (.ok ⟨⟩, w') ∧ Stored fields base length w w' ∧
    ∀ v, Copied fields base length w w' v → reads v

namespace Room

variable {base size length length' : Nat} {w w' : Window}

theorem mono (h : Room base size length w) (hl : length' ≤ length) : Room base size length' w :=
  ⟨h.block_le, Nat.le_trans (Nat.add_le_add_left hl _) h.behind_le, h.limit_le, h.limit_le_max⟩

theorem after {fields : List Field} (h : Room base size (length + length') w)
    (hs : Stored fields base length w w') : Room base size length' w' := by
  refine ⟨?_, ?_, ?_, ?_⟩
  · have := h.block_le
    rw [hs.position_eq]
    omega
  · have := h.behind_le
    rw [hs.position_eq, hs.limit_eq]
    omega
  · rw [hs.limit_eq, hs.size_eq]
    exact h.limit_le
  · rw [hs.limit_eq]
    exact h.limit_le_max

theorem front_le (h : Room base size (length + length') w) :
    w.position + length ≤ w.bytes.length :=
  Nat.le_trans (Nat.le_trans (Nat.add_le_add_left (Nat.le_add_right _ _) _) h.behind_le) h.limit_le

theorem stored_le {f : Field} (h : Room base size length w)
    (hin : f.offset + f.extent ≤ size) : base + f.offset + f.extent ≤ w.limit := by
  have := h.block_le
  have := h.behind_le
  omega

theorem wordOf_place {f : Field} (h : Room base size length w)
    (hin : f.offset + f.extent ≤ size) : wordOf (base + f.offset) = base + f.offset :=
  Window.wordOf_of_le (Nat.le_of_add_right_le (h.stored_le hin))

theorem wordOf_stored_le {f : Field} (h : Room base size length w)
    (hin : f.offset + f.extent ≤ size) : wordOf (base + f.offset) + f.extent ≤ w.limit := by
  rw [h.wordOf_place hin]
  exact h.stored_le hin

end Room

section

variable {fields fields' : List Field} {base length length' : Nat} {w w₁ w₂ v : Window}

theorem Stored.append (h : Stored fields base length w w₁)
    (h' : Stored fields' base length' w₁ w₂) :
    Stored (fields ++ fields') base (length + length') w w₂ := by
  refine ⟨h'.limit_eq.trans h.limit_eq, h'.version_eq.trans h.version_eq, ?_,
    h'.size_eq.trans h.size_eq, ?_⟩
  · rw [h'.position_eq, h.position_eq, Nat.add_assoc]
  · intro start size hfixed hbehind
    have hrest : w₂.bytes.slice start size = w₁.bytes.slice start size := by
      apply h'.frame
      · exact fun g hg => hfixed g (List.mem_append_right fields hg)
      · rw [h.position_eq]
        exact hbehind.part (by omega) (by omega)
    rw [hrest]
    apply h.frame
    · exact fun f hf => hfixed f (List.mem_append_left fields' hf)
    · exact hbehind.part (by omega) (by omega)

theorem Stored.of_nil (h : Stored [] base length w w₁) (fields : List Field) (base' : Nat) :
    Stored fields base' length w w₁ :=
  ⟨h.limit_eq, h.version_eq, h.position_eq, h.size_eq,
    fun start size _ hbehind => h.frame start size (by simp) hbehind⟩

theorem Copied.nil (h : Copied fields base length w w₁ v) (base' : Nat) :
    Copied [] base' length w w₁ v :=
  ⟨h.version_eq, h.position_eq, by simp, h.behind⟩

theorem Copied.left (fields : List Field)
    (hc : Copied (fields ++ fields') base (length + length') w w₂ v)
    (h : Stored fields base length w w₁) (h' : Stored fields' base length' w₁ w₂)
    (hbefore : ∀ f ∈ fields ++ fields', f.isStored → base + f.offset + f.extent ≤ w.position)
    (hapart : ∀ f ∈ fields, f.isStored → ∀ g ∈ fields', g.isStored →
      Bytes.Apart f.offset f.extent g.offset g.extent) :
    Copied fields base length w w₁ v := by
  -- The second step writes other fields and further on, so what the first one wrote is still there.
  refine ⟨hc.version_eq, hc.position_eq, ?_, ?_⟩
  · intro f hf hs
    have := hbefore f (List.mem_append_left fields' hf) hs
    apply (hc.fixed f (List.mem_append_left fields' hf) hs).of_slice_eq
    apply h'.frame
    · intro g hg hgs
      have ha := hapart f hf hs g hg hgs
      unfold Bytes.Apart at *
      omega
    · rw [h.position_eq]
      unfold Bytes.Apart
      omega
  · apply (hc.behind.part (Nat.le_refl _) (by omega)).of_slice_eq
    apply h'.frame
    · intro g hg hgs
      have := hbefore g (List.mem_append_right fields hg) hgs
      unfold Bytes.Apart
      omega
    · rw [h.position_eq]
      unfold Bytes.Apart
      omega

theorem Copied.right (fields : List Field)
    (hc : Copied (fields ++ fields') base (length + length') w w₂ v)
    (h : Stored fields base length w w₁) : Copied fields' base length' w₁ w₂ (v.moved length) := by
  refine ⟨hc.version_eq.trans h.version_eq.symm, ?_, ?_, ?_⟩
  · rw [Window.moved_position, hc.position_eq, h.position_eq]
  · exact fun g hg hgs => (hc.fixed g (List.mem_append_right fields hg) hgs).moved length
  · rw [h.position_eq]
    exact (hc.behind.part (by omega) (by omega)).moved length

theorem Stored.element (hin : ∀ f ∈ fields, f.isStored → f.offset + f.extent ≤ length)
    (h : Stored fields w.position length' (w.moved length) w₁) (base : Nat) :
    Stored [] base (length + length') w w₁ := by
  refine ⟨h.limit_eq, h.version_eq, ?_, h.size_eq, ?_⟩
  · rw [h.position_eq, Window.moved_position, Nat.add_assoc]
  · intro start size _ hbehind
    apply h.frame
    · intro f hf hs
      have := hin f hf hs
      exact hbehind.part (by omega) (by omega)
    · exact hbehind.part (by simp only [Window.moved_position]; omega)
        (by simp only [Window.moved_position]; omega)

theorem Copied.element (hin : ∀ f ∈ fields, f.isStored → f.offset + f.extent ≤ length)
    (hc : Copied [] base (length + length') w w₁ v) :
    Copied fields w.position length' (w.moved length) w₁ (v.moved length) := by
  refine ⟨hc.version_eq, ?_, ?_, ?_⟩
  · rw [Window.moved_position, hc.position_eq, Window.moved_position]
  · intro f hf hs
    have := hin f hf hs
    exact (hc.behind.part (by omega) (by omega)).moved length
  · rw [Window.moved_position]
    exact (hc.behind.part (by omega) (by omega)).moved length

end

namespace RoundTrips

variable {fields : List Field} {base size : Nat} {store : Action Window Unit}
  {reads : Window → Prop} {w : Window}

theorem mono {length : Nat} {reads' : Window → Prop}
    (h : RoundTrips fields base length store reads w)
    (hreads : ∀ v, reads v → reads' v) : RoundTrips fields base length store reads' w := by
  obtain ⟨w', hstore, hs, hfound⟩ := h
  exact ⟨w', hstore, hs, fun v hv => hreads v (hfound v hv)⟩

theorem of_nothing (hstore : store w = (.ok ⟨⟩, w))
    (hreads : ∀ v, v.version = w.version → reads v) : RoundTrips fields base 0 store reads w := by
  refine ⟨w, hstore, ⟨rfl, rfl, rfl, rfl, fun _ _ _ _ => rfl⟩, ?_⟩
  intro v hv
  exact hreads v hv.version_eq

theorem of_written {f : Field} {part : Bytes} (hr : Room base size 0 w) (hf : f.isStored)
    (hin : f.offset + f.extent ≤ size) (hlen : part.length = f.extent)
    (hstore : store w = (.ok ⟨⟩, w.written (wordOf (base + f.offset)) part))
    (hreads : ∀ v, v.version = w.version →
      v.read (wordOf (base + f.offset)) f.extent = .ok part → reads v) :
    RoundTrips [f] base 0 store reads w := by
  rw [hr.wordOf_place hin] at hstore hreads
  have hfit : base + f.offset + part.length ≤ w.bytes.length := by
    have := hr.block_le
    have := hr.behind_le
    have := hr.limit_le
    omega
  refine ⟨_, hstore, ⟨rfl, rfl, rfl, Bytes.length_overwrite hfit, ?_⟩, ?_⟩
  · intro start size' hfixed _
    apply Bytes.slice_overwrite_apart hfit
    rw [hlen]
    exact (hfixed f List.mem_cons_self hf).symm
  · intro v hv
    apply hreads v hv.version_eq
    rw [(hv.fixed f List.mem_cons_self hf).read, Window.written_bytes, ← hlen,
      Bytes.slice_overwrite (by omega)]

theorem of_parts {f : Field} (hf : f.isStored)
    (hin : ∀ g ∈ fields, g.isStored → g.offset + g.extent ≤ f.extent)
    (h : RoundTrips fields (base + f.offset) 0 store reads w) :
    RoundTrips [f] base 0 store reads w := by
  obtain ⟨w', hstore, hs, hreads⟩ := h
  refine ⟨w', hstore, ⟨hs.limit_eq, hs.version_eq, hs.position_eq, hs.size_eq, ?_⟩, ?_⟩
  · intro start size hfixed hbehind
    apply hs.frame start size _ hbehind
    intro g hg hgs
    have := hin g hg hgs
    exact (hfixed f List.mem_cons_self hf).part (by omega) (by omega)
  · intro v hv
    apply hreads v ⟨hv.version_eq, hv.position_eq, ?_, hv.behind⟩
    intro g hg hgs
    have := hin g hg hgs
    exact (hv.fixed f List.mem_cons_self hf).part (by omega) (by omega)

end RoundTrips

end SimpleBinary
