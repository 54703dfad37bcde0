import SimpleBinary.Proofs.JsonWalk

namespace SimpleBinary

mutual

def Field.sized : Field → Reading → Bool
  | ⟨_, _, _, .composite c, _, _, _⟩, .composite _ _ members => sizedFields c.fields members
  | ⟨_, _, _, .group g, _, _, _⟩, .group _ _ blockLength elements =>
    blockLength == g.blockLength && elements.all fun
      | .ok readings => sizedFields g.fields readings
      | .error _ => true
  | _, _ => true

def sizedFields : List Field → List Reading → Bool
  | f :: rest, reading :: readings => f.sized reading && sizedFields rest readings
  | _, _ => true

end

namespace Field

variable {f : Field} {name : String}

theorem sized_composite {c : CompositeDef} (hk : f.kind = .composite c)
    {present : Except Error Bool} {members : List Reading} :
    f.sized (.composite name present members) = sizedFields c.fields members := by
  obtain ⟨_, id, offset, kind, presence, constant, since⟩ := f
  cases hk
  rfl

theorem sized_group {g : GroupDef} (hk : f.kind = .group g) {count blockLength : Nat}
    {elements : List (Except Error (List Reading))} :
    f.sized (.group name count blockLength elements) =
      (blockLength == g.blockLength && elements.all fun
        | .ok readings => sizedFields g.fields readings
        | .error _ => true) := by
  obtain ⟨_, id, offset, kind, presence, constant, since⟩ := f
  cases hk
  rfl

def ShowsContent (f : Field) : Prop :=
  ∀ (base : Nat) (w : Window), f.portable → f.wellFormed w.version → w.limit ≤ w.bytes.length →
    (f.walk base true w).1.complete → f.sized (f.walk base true w).1 →
    (f.walk base true w).1.legible →
    ∃ content, f.admits content ∧ f.legible content ∧
      f.shows w.version content (f.walk base true w).1

end Field

def ShowsContentFields (fields : List Field) : Prop :=
  ∀ (base : Nat) (w : Window), portableFields fields → wellFormedFields w.version fields →
    w.limit ≤ w.bytes.length → completeReadings (walkFields base true fields w).1 →
    sizedFields fields (walkFields base true fields w).1 →
    legibleReadings (walkFields base true fields w).1 →
    ∃ contents, admitsFields fields contents ∧ legibleFields fields contents ∧
      showsFields w.version fields contents (walkFields base true fields w).1

namespace Field

theorem showsContent_type (f : Field) (t : TypeDef) (hk : f.kind = .type t) : f.ShowsContent := by
  intro base w hportable hwf hw hcomplete _ hlegible
  have hv := visible_bindAt ((wellFormed_type hk).mp hwf) base
  rw [walk_type hk] at hcomplete hlegible ⊢
  by_cases hp : f.presence = .constant
  · refine ⟨.none, admits_of_constant hk hp, legible_constant hk, shows_type_constant hk ?_⟩
    intro c hc
    exact Binding.value_of_constant hk hp hc
  · obtain ⟨-, hvalue⟩ := Bool.and_eq_true_iff.mp hcomplete
    cases hread : (f.bindAt base true w.version).value w with
    | error reason =>
      rw [hread] at hvalue
      cases hvalue
    | ok v =>
      rw [hread] at hlegible
      have ha := Binding.admits_of_value ⟨hv, hp⟩ hk (extent_lt_of_portable hk hportable) hw hread
      exact ⟨.value v, admits_of_value hk hp ha, legible_of_value hk hlegible, shows_type hk _ v⟩

theorem showsContent_enum (f : Field) (e : EnumDef) (hk : f.kind = .enum e) : f.ShowsContent := by
  intro base w hportable hwf _ hcomplete _ _
  obtain ⟨-, hstored, -, -⟩ := portable_enum hk hportable
  obtain ⟨hsince, hu⟩ := (wellFormed_enum hk).mp hwf
  rw [walk_enum hk] at hcomplete ⊢
  obtain ⟨hcomplete, -⟩ := Bool.and_eq_true_iff.mp hcomplete
  obtain ⟨-, hraw⟩ := Bool.and_eq_true_iff.mp hcomplete
  cases hread : (f.bindAt base true w.version).enumRaw w with
  | error reason =>
    rw [hread] at hraw
    cases hraw
  | ok n =>
    have hn := Binding.enumRaw_le_rawMax ⟨visible_bindAt hsince base, hstored⟩ hk hu hread
    rw [Binding.enumName?_of_enumRaw hk hread]
    exact ⟨.raw n, admits_of_raw hk hstored hn, legible_raw hk n, shows_enum hk _ n⟩

theorem showsContent_set (f : Field) (s : SetDef) (hk : f.kind = .set s) : f.ShowsContent := by
  intro base w hportable _ _ hcomplete _ _
  obtain ⟨hstored, -⟩ := (portable_set hk).mp hportable
  rw [walk_set hk] at hcomplete ⊢
  obtain ⟨hcomplete, -⟩ := Bool.and_eq_true_iff.mp hcomplete
  obtain ⟨-, hbits⟩ := Bool.and_eq_true_iff.mp hcomplete
  cases hread : (f.bindAt base true w.version).bits w with
  | error reason =>
    rw [hread] at hbits
    cases hbits
  | ok set =>
    rw [Binding.choices_of_bits hk hread]
    exact ⟨.bits set, admits_of_bits hk hstored (Binding.encoding_of_bits hk hstored hread),
      legible_bits hk set, shows_set hk _ set⟩

theorem showsContent_composite (f : Field) (c : CompositeDef) (hk : f.kind = .composite c)
    (ih : ShowsContentFields c.fields) : f.ShowsContent := by
  intro base w hportable hwf hw hcomplete hsized hlegible
  obtain ⟨hstored, -, -, hportable⟩ := (portable_composite hk).mp hportable
  obtain ⟨hsince, -, -, hwf⟩ := (wellFormed_composite hk).mp hwf
  have hv : (true && f.inVersion w.version) = true := decide_eq_true hsince
  rw [walk_composite hk, hv] at hcomplete hsized hlegible ⊢
  obtain ⟨-, hcomplete⟩ := Bool.and_eq_true_iff.mp hcomplete
  rw [sized_composite hk] at hsized
  obtain ⟨contents, ha, hl, hshows⟩ := ih _ w hportable hwf hw hcomplete hsized hlegible
  exact ⟨.members contents, admits_of_members hk hstored ha, (legible_composite hk).mpr hl,
    shows_composite hk hshows _⟩

theorem showsContent_data (f : Field) (d : DataDef) (hk : f.kind = .data d) : f.ShowsContent := by
  intro base w _ hwf hw hcomplete _ hlegible
  obtain ⟨hsince, hd⟩ := (wellFormed_data hk).mp hwf
  have hv : (f.dataView d true w.version).visible = true := decide_eq_true hsince
  rw [walk_data hk] at hcomplete hlegible ⊢
  obtain ⟨-, hvalue⟩ := Bool.and_eq_true_iff.mp hcomplete
  cases hpayload : (f.dataView d true w.version).payload w with
  | error reason =>
    rw [DataView.value_of_error hv hpayload] at hvalue
    cases hvalue
  | ok place =>
    obtain ⟨bytes, w', hread⟩ := Action.exists_of_isOk hvalue
    have ha := DataView.admits_of_value (d := f.dataView d true w.version) hd hw hread
    obtain rfl := DataView.eq_slice_of_value hv hpayload hread
    obtain ⟨count, hcount, -, hsize, -, hle⟩ := DataView.payload_eq_ok hpayload
    have helements : d.elementCount (w.bytes.slice place.1 place.2) = count := by
      rw [DataOf.elementCount, Bytes.length_slice (Nat.le_trans hle hw), hsize]
      exact Nat.mul_div_cancel _ (Primitive.size_pos _)
    rw [hread] at hlegible ⊢
    rw [hcount, ← helements]
    exact ⟨.payload _, admits_of_payload hk ha, (legible_data hk).mpr hlegible, shows_data hk _⟩

end Field

theorem elements_content {g : GroupDef} {version : UInt16} (hportable : portableFields g.fields)
    (hwf : wellFormedFields version g.fields) (ih : ShowsContentFields g.fields) (n : Nat)
    (it : Iteration) (hversion : it.window.version = version)
    (hw : it.window.limit ≤ it.window.bytes.length)
    (hcomplete : completeElements
      (Walk.elements (fun base => walkFields base true g.fields) n it).1)
    (hsized : (Walk.elements (fun base => walkFields base true g.fields) n it).1.all fun
      | .ok readings => sizedFields g.fields readings
      | .error _ => true)
    (hlegible : legibleElements
      (Walk.elements (fun base => walkFields base true g.fields) n it).1) :
    ∃ contents : List (List FieldContent), contents.length = n ∧
      (∀ content ∈ contents, admitsFields g.fields content) ∧
      (∀ content ∈ contents, legibleFields g.fields content) ∧
      g.ShowsElements version contents
        (Walk.elements (fun base => walkFields base true g.fields) n it).1 := by
  induction n generalizing it with
  | zero => exact ⟨[], rfl, nofun, nofun, .nil⟩
  | succ n hrest =>
    cases hnext : Iteration.next it with
    | mk result it' =>
      cases result with
      -- An element that could not be visited leaves the reading incomplete.
      | error reason =>
        rw [Walk.elements_of_error hnext] at hcomplete
        cases hcomplete
      | ok base =>
        have hframe := (Iteration.keeps_window_next Window.keeps_advance).after hnext
        have hversion' := (Window.version_of_frame hframe).trans hversion
        have hw' := Window.limit_of_frame hframe hw
        have hwalk := frame_walk.table g.fields base true it'.window
        rw [Walk.elements_of_ok hnext] at hcomplete hsized hlegible ⊢
        obtain ⟨hcomplete, hcompleteRest⟩ := Bool.and_eq_true_iff.mp hcomplete
        obtain ⟨hsized, hsizedRest⟩ := Bool.and_eq_true_iff.mp hsized
        obtain ⟨hlegible, hlegibleRest⟩ := Bool.and_eq_true_iff.mp hlegible
        obtain ⟨content, ha, hl, hshows⟩ :=
          ih base it'.window hportable (hversion' ▸ hwf) hw' hcomplete hsized hlegible
        obtain ⟨contents, rfl, haRest, hlRest, hshowsRest⟩ :=
          hrest _ ((Window.version_of_frame hwalk).trans hversion')
            (Window.limit_of_frame hwalk hw') hcompleteRest hsizedRest hlegibleRest
        refine ⟨content :: contents, rfl, List.forall_mem_cons.mpr ⟨ha, haRest⟩,
          List.forall_mem_cons.mpr ⟨hl, hlRest⟩, .cons ⟨_, rfl, ?_⟩ hshowsRest⟩
        rw [← hversion']
        exact hshows

theorem Field.showsContent_group (f : Field) (g : GroupDef) (hk : f.kind = .group g)
    (ih : ShowsContentFields g.fields) : f.ShowsContent := by
  intro base w hportable hwf hw hcomplete hsized hlegible
  obtain ⟨-, hportable⟩ := (portable_group hk).mp hportable
  obtain ⟨-, hg, -, hwf⟩ := (wellFormed_group hk).mp hwf
  cases hbind : GroupView.bind f g (true && f.inVersion w.version) w with
  | mk result v =>
    cases result with
    | error reason =>
      rw [walk_group_of_error hk hbind] at hcomplete
      cases hcomplete
    | ok view =>
      have hframe := (GroupView.keeps_bind Window.keeps_advance f g _).after hbind
      have hcount := GroupView.count_le_rawMax hg hbind
      rw [walk_group_of_ok hk hbind] at hcomplete hsized hlegible ⊢
      rw [sized_group hk] at hsized
      obtain ⟨hblock, hsized⟩ := Bool.and_eq_true_iff.mp hsized
      obtain ⟨contents, hlength, ha, hl, hshows⟩ := elements_content hportable hwf ih view.count
        ⟨view, v⟩ (Window.version_of_frame hframe) (Window.limit_of_frame hframe hw) hcomplete
        hsized hlegible
      rw [← hlength] at hcount hshows ⊢
      rw [beq_iff_eq.mp hblock]
      exact ⟨.elements contents, admits_of_elements hk hcount ha, (legible_group hk).mpr hl,
        shows_group hk hshows⟩

theorem showsContent : TableInduction Field.ShowsContent ShowsContentFields where
  type := Field.showsContent_type
  enum := Field.showsContent_enum
  set := Field.showsContent_set
  composite := Field.showsContent_composite
  group := Field.showsContent_group
  data := Field.showsContent_data
  nil := fun _ _ _ _ _ _ _ _ => ⟨[], trivial, trivial, trivial⟩
  cons f rest hf ih := by
    intro base w hportable hwf hw hcomplete hsized hlegible
    obtain ⟨hportable, hportableRest⟩ := portableFields_cons.mp hportable
    obtain ⟨hwf, hwfRest⟩ := wellFormedFields_cons.mp hwf
    have hwalk := frame_walk.field f base true w
    have hversion := Window.version_of_frame hwalk
    rw [walkFields_cons] at hcomplete hsized hlegible ⊢
    obtain ⟨hcomplete, hcompleteRest⟩ := Bool.and_eq_true_iff.mp hcomplete
    obtain ⟨hsized, hsizedRest⟩ := Bool.and_eq_true_iff.mp hsized
    obtain ⟨hlegible, hlegibleRest⟩ := Bool.and_eq_true_iff.mp hlegible
    obtain ⟨content, ha, hl, hshows⟩ := hf base w hportable hwf hw hcomplete hsized hlegible
    obtain ⟨contents, haRest, hlRest, hshowsRest⟩ := ih base _ hportableRest
      (hversion ▸ hwfRest) (Window.limit_of_frame hwalk hw) hcompleteRest hsizedRest hlegibleRest
    exact ⟨content :: contents, ⟨ha, haRest⟩, ⟨hl, hlRest⟩, ⟨hshows, hversion ▸ hshowsRest⟩⟩

end SimpleBinary
