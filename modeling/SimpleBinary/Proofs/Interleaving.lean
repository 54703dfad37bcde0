import Mathlib.Data.List.Sort
import SimpleBinary.Proofs.Extents

namespace SimpleBinary

theorem Bytes.overwrite_comm {bytes part part' : Bytes} {start start' : Nat}
    (h : start + part.length ≤ bytes.length) (h' : start' + part'.length ≤ bytes.length)
    (ha : Apart start part.length start' part'.length) :
    (bytes.overwrite start part).overwrite start' part' =
      (bytes.overwrite start' part').overwrite start part := by
  have hlength := length_overwrite h
  have hlength' := length_overwrite h'
  apply List.ext_getElem?
  intro i
  rw [getElem?_overwrite (by omega), getElem?_overwrite h, getElem?_overwrite (by omega),
    getElem?_overwrite h']
  unfold Apart at ha
  by_cases hi : i < start ∨ start + part.length ≤ i
  · rw [if_pos hi, if_pos hi]
  · rw [if_neg hi, if_neg hi, if_pos (by omega)]

def Operation.owner? {α : Type} : Operation α → Option Owner
  | .field spot _ => spot.owner?
  | _ => none

/-- Whether the operation is on a fixed field of a block that is open, with a value that suits it,
or goes onward over groups and data. -/
def Session.Allows {α : Type} (s : Session) : Operation α → Prop
  | .field spot operation => ∃ owner e, s.Reaches spot owner e ∧
    ∀ b, s.bind spot = .ok b → operation.Suits b.field
  | operation => operation.GoesOnward s

def Session.Orderly : List Step → Session → Prop
  | [], _ => True
  | step :: rest, s => s.Allows step.2 ∧ Orderly rest (step.2.run s).2

namespace Session

def written (s : Session) (start : Nat) (part : Bytes) : Session :=
  s.withWindow (s.window.written start part)

variable {s t : Session} {start : Nat} {part : Bytes} {owner : Owner} {e : Extent}

@[simp] theorem window_written : (s.written start part).window = s.window.written start part := rfl

@[simp] theorem extent?_written : (s.written start part).extent? owner = s.extent? owner := by
  cases owner <;> rfl

@[simp] theorem visits_written : (s.written start part).visits owner = s.visits owner := by
  cases owner <;> rfl

theorem Spread.stop_le_limit (hs : s.Spread) (he : s.extent? owner = some e) :
    e.stop ≤ s.window.limit :=
  Nat.le_trans (hs.settled owner e he).stop_le hs.sound.position_le

theorem sound_written (hs : s.window.Sound) (hle : start + part.length ≤ s.window.limit) :
    (s.window.written start part).Sound := by
  refine ⟨hs.position_le, ?_⟩
  rw [Window.written_bytes, Bytes.length_overwrite (Nat.le_trans hle hs.limit_le)]
  exact hs.limit_le

theorem settled_written (he : e.Settled s) : e.Settled (s.written start part) :=
  ⟨he.stop_le, he.apart⟩

theorem Spread.written (hs : s.Spread) (hle : start + part.length ≤ s.window.limit) :
    (s.written start part).Spread where
  sound := sound_written hs.sound hle
  headers := hs.headers
  settled owner e he := settled_written (hs.settled owner e (extent?_written ▸ he))
  apart owner owner' hne e e' he he' := by
    rw [extent?_written] at he he'
    exact hs.apart owner owner' hne e e' he he'

theorem agrees_written {places : Nat → Prop} (hs : s.window.Sound)
    (hle : start + part.length ≤ s.window.limit)
    (hp : ∀ i, places i → i < start ∨ start + part.length ≤ i) :
    s.Agrees places (s.written start part) :=
  ⟨rfl, .written hs hle hp⟩

def Local {α : Type} (s : Session) (operation : Operation α) (owner : Owner) (e : Extent) : Prop :=
  ∃ start part, e.base ≤ start ∧ start + part.length ≤ e.stop ∧
    ∀ t, s.SameExtent t owner e →
      (operation.run t).1 = (operation.run s).1 ∧ (operation.run t).2 = t.written start part

theorem SameExtent.refl (he : s.extent? owner = some e) (hl : e.stop ≤ s.window.limit) :
    s.SameExtent s owner e :=
  ⟨he, ⟨rfl, fun _ _ _ => rfl, s.window.lt_of_le_limit hl, s.window.lt_of_le_limit hl⟩, rfl⟩

theorem Local.run_eq {α : Type} {operation : Operation α} (h : s.Local operation owner e)
    (he : s.extent? owner = some e) (hl : e.stop ≤ s.window.limit) :
    ∃ start part, e.base ≤ start ∧ start + part.length ≤ e.stop ∧
      (operation.run s).2 = s.written start part := by
  obtain ⟨start, part, hstart, hstop, hlocal⟩ := h
  exact ⟨start, part, hstart, hstop, (hlocal s (.refl he hl)).2⟩

theorem Allows.local {α : Type} {operation : Operation α} (h : s.Allows operation)
    (hs : s.Spread) (ho : operation.owner? = some owner) :
    ∃ e, s.extent? owner = some e ∧ s.Local operation owner e := by
  cases operation with
  | field spot operation =>
    obtain ⟨owner', e, hreaches, hsuits⟩ := h
    obtain rfl : owner' = owner := Option.some.inj (hreaches.owner_eq.symm.trans ho)
    exact ⟨e, hreaches.extent_eq, Operation.field_blockwise hreaches hsuits
      (hs.stop_le_limit hreaches.extent_eq)⟩
  | _ => cases ho

theorem Allows.goesOnward {α : Type} {operation : Operation α} (h : s.Allows operation)
    (ho : operation.owner? = none) : operation.GoesOnward s := by
  cases operation with
  | field spot operation =>
    obtain ⟨owner, e, hreaches, -⟩ := h
    exact absurd (hreaches.owner_eq.symm.trans ho) (Option.some_ne_none owner)
  | _ => exact h

theorem Allows.of_extent {α : Type} {operation : Operation α} (h : s.Allows operation)
    (ho : operation.owner? = some owner) (hs : s.extent? owner = some e)
    (ht : t.extent? owner = some e) (hv : t.message.version = s.message.version) :
    t.Allows operation := by
  cases operation with
  | field spot operation =>
    obtain ⟨owner', e', hreaches, hsuits⟩ := h
    obtain rfl : owner' = owner := Option.some.inj (hreaches.owner_eq.symm.trans ho)
    obtain rfl : e' = e := Option.some.inj (hreaches.extent_eq.symm.trans hs)
    refine ⟨owner', e', hreaches.of_extent ht hv, ?_⟩
    rw [bind_of_extent hs ht hv spot ho]
    exact hsuits
  | _ => cases ho

theorem goesOnward_written {α : Type} {operation : Operation α} :
    operation.GoesOnward (s.written start part) ↔ operation.GoesOnward s := by
  have hbind (spot : Spot) : (s.written start part).bind spot = s.bind spot :=
    s.bind_withWindow (w := s.window.written start part) rfl spot
  cases operation with
  | data | entry | group =>
    simp only [Operation.GoesOnward, hbind, window_written, Window.written_limit]
  | _ => exact Iff.rfl

theorem allows_of_goesOnward {α : Type} {operation : Operation α} (h : operation.GoesOnward s) :
    s.Allows operation := by
  cases operation with
  | field => cases h
  | _ => exact h

theorem SameExtent.written (he : s.extent? owner = some e) (hl : e.stop ≤ s.window.limit)
    (hs : s.window.Sound) (hle : start + part.length ≤ s.window.limit)
    (ha : Bytes.Apart start part.length e.base e.length) :
    s.SameExtent (s.written start part) owner e where
  extent_eq := extent?_written.trans he
  block := by
    refine ⟨rfl, ?_, s.window.lt_of_le_limit hl, s.window.lt_of_le_limit hl⟩
    intro inner size hinner
    have hpart : Bytes.Apart start part.length (e.base + inner) size :=
      ha.part (Nat.le_add_right _ _) (by omega)
    simp only [window_written, Window.read, Window.check, Window.written_limit,
      Window.written_bytes, Bytes.slice_overwrite_apart (Nat.le_trans hle hs.limit_le) hpart]
    rfl
  limit_eq := rfl

theorem SameExtent.symm (h : s.SameExtent t owner e) (he : s.extent? owner = some e) :
    t.SameExtent s owner e :=
  ⟨he, ⟨h.block.version_eq.symm, fun inner size hle => (h.block.read_eq inner size hle).symm,
    h.block.stop_lt', h.block.stop_lt⟩, h.limit_eq.symm⟩

theorem written_comm {start' : Nat} {part' : Bytes}
    (h : start + part.length ≤ s.window.bytes.length)
    (h' : start' + part'.length ≤ s.window.bytes.length)
    (ha : Bytes.Apart start part.length start' part'.length) :
    (s.written start part).written start' part' =
      (s.written start' part').written start part := by
  have hbytes := Bytes.overwrite_comm h h' ha
  simp only [written, withWindow, window, Window.written] at hbytes ⊢
  rw [hbytes]

theorem local_swap {α β : Type} {x : Operation α} {y : Operation β} {owner' : Owner} {e' : Extent}
    (hs : s.Spread) (hne : owner ≠ owner') (he : s.extent? owner = some e)
    (he' : s.extent? owner' = some e') (hx : s.Local x owner e)
    (hy : (x.run s).2.Local y owner' e') :
    (y.run s).1 = (y.run (x.run s).2).1 ∧ (x.run (y.run s).2).1 = (x.run s).1 ∧
      (x.run (y.run s).2).2 = (y.run (x.run s).2).2 := by
  obtain ⟨start, part, hstart, hstop, hx⟩ := hx
  have hlimit := hs.stop_le_limit he
  have hlimit' := hs.stop_le_limit he'
  have hspread : (s.written start part).Spread := hs.written (Nat.le_trans hstop hlimit)
  have hapart := hs.apart owner owner' hne e e' he he'
  rw [(hx s (.refl he hlimit)).2] at hy ⊢
  obtain ⟨start', part', hstart', hstop', hy⟩ := hy
  have hwrite := Nat.le_trans hstop hlimit
  have hwrite' := Nat.le_trans hstop' hlimit'
  -- Each operation writes in its own block, so it leaves the block of the other as it was.
  have hblock' : s.SameExtent (s.written start part) owner' e' :=
    .written he' hlimit' hs.sound hwrite (hapart.symm.part hstart hstop).symm
  have hblock : s.SameExtent (s.written start' part') owner e :=
    .written he hlimit hs.sound hwrite' (hapart.part hstart' hstop').symm
  obtain ⟨hyresult, hyafter⟩ := hy s (hblock'.symm he')
  obtain ⟨-, hyafter'⟩ := hy _ (.refl hblock'.extent_eq hlimit')
  rw [hyafter, hyafter']
  obtain ⟨hxresult, hxafter⟩ := hx _ hblock
  refine ⟨hyresult, hxresult, ?_⟩
  rw [hxafter]
  exact written_comm (Nat.le_trans hwrite' hs.sound.limit_le)
    (Nat.le_trans hwrite hs.sound.limit_le)
    ((hapart.symm.part hstart hstop).symm.part hstart' hstop').symm

theorem onward_written {α : Type} {x : Operation α} (hs : s.Spread) (hx : x.GoesOnward s)
    (he : e.Settled s) (hstart : e.base ≤ start) (hstop : start + part.length ≤ e.stop) :
    (x.run (s.written start part)).1 = (x.run s).1 ∧
      (x.run (s.written start part)).2 = (x.run s).2.written start part := by
  have hwrite : start + part.length ≤ s.window.limit :=
    Nat.le_trans hstop (Nat.le_trans he.stop_le hs.sound.position_le)
  have hpassage := Operation.passage hs.sound hx
  have hpassage' : Passage (s.written start part) (x.run (s.written start part)).2 :=
    Operation.passage (sound_written hs.sound hwrite) (goesOnward_written.mpr hx)
  have hagrees : s.Agrees (fun i => i < e.base ∨ e.stop ≤ i) (s.written start part) := by
    apply agrees_written hs.sound hwrite
    intro i hi
    omega
  obtain ⟨hresult, hrelated⟩ := Operation.alike_of_agrees hx hs.sound hagrees fun i hi =>
    .inr (Nat.le_trans he.stop_le hi)
  refine ⟨hresult, hrelated.same.trans (congrArg _ ?_)⟩
  have hlength : start + part.length ≤ (x.run s).2.window.bytes.length := by
    rw [hpassage.length_eq]
    exact Nat.le_trans hwrite hs.sound.limit_le
  have hbytes : (x.run (s.written start part)).2.window.bytes =
      (x.run s).2.window.bytes.overwrite start part := by
    apply List.ext_getElem?
    intro i
    -- Outside of the block the two runs agree, and inside of it each keeps what it found.
    by_cases hout : i < e.base ∨ e.stop ≤ i
    · rw [hrelated.window.getElem?_eq i hout, Bytes.getElem?_overwrite hlength,
        if_pos (by omega)]
    · rw [hpassage'.getElem?_eq (settled_written he) (by omega) (by omega), window_written,
        Window.written_bytes, Bytes.getElem?_overwrite hlength,
        Bytes.getElem?_overwrite (Nat.le_trans hwrite hs.sound.limit_le),
        hpassage.getElem?_eq he (by omega) (by omega)]
  have hwindow := hrelated.window
  simp only [Window.written, ← hbytes, ← hwindow.limit_eq, ← hwindow.position_eq,
    ← hwindow.version_eq]

theorem onward_swap {α β : Type} {x : Operation α} {y : Operation β} (hs : s.Spread)
    (hx : x.GoesOnward s) (he : s.extent? owner = some e)
    (he' : (x.run s).2.extent? owner = some e) (hy : (x.run s).2.Local y owner e) :
    (y.run s).1 = (y.run (x.run s).2).1 ∧ (x.run (y.run s).2).1 = (x.run s).1 ∧
      (x.run (y.run s).2).2 = (y.run (x.run s).2).2 := by
  have hpassage := Operation.passage hs.sound hx
  have hsettled := hs.settled owner e he
  have hkept : s.SameExtent (x.run s).2 owner e :=
    ⟨he', hpassage.sameBlock hsettled (hs.stop_le_limit he), hpassage.limit_eq⟩
  obtain ⟨start, part, hstart, hstop, hy⟩ := hy
  obtain ⟨hyresult, hyafter⟩ := hy s (hkept.symm he)
  have hlimit : e.stop ≤ (x.run s).2.window.limit := by
    rw [hpassage.limit_eq]
    exact hs.stop_le_limit he
  obtain ⟨-, hyafter'⟩ := hy _ (.refl he' hlimit)
  obtain ⟨hxresult, hxafter⟩ := onward_written hs hx hsettled hstart hstop
  rw [hyafter, hyafter']
  exact ⟨hyresult, hxresult, hxafter⟩

theorem Allows.run_field {α : Type} {operation : Operation α} (h : s.Allows operation)
    (hs : s.Spread) (ho : operation.owner? = some owner) :
    ∃ start part, start + part.length ≤ s.window.limit ∧
      (operation.run s).2 = s.written start part := by
  obtain ⟨e, he, hlocal⟩ := h.local hs ho
  obtain ⟨start, part, -, hstop, hrun⟩ := hlocal.run_eq he (hs.stop_le_limit he)
  exact ⟨start, part, Nat.le_trans hstop (hs.stop_le_limit he), hrun⟩

theorem Allows.run_cases {α : Type} {operation : Operation α} (h : s.Allows operation)
    (hs : s.Spread) :
    (∃ start part, start + part.length ≤ s.window.limit ∧
      (operation.run s).2 = s.written start part) ∨ s.Passage (operation.run s).2 := by
  cases ho : operation.owner? with
  | some owner => exact .inl (h.run_field hs ho)
  | none => exact .inr (Operation.passage hs.sound (h.goesOnward ho))

theorem Allows.spread {α : Type} {operation : Operation α} (h : s.Allows operation)
    (hs : s.Spread) : (operation.run s).2.Spread := by
  rcases h.run_cases hs with ⟨start, part, hle, hrun⟩ | hpassage
  · rw [hrun]
    exact hs.written hle
  · exact hpassage.spread hs

theorem Allows.settled {α : Type} {operation : Operation α} (h : s.Allows operation)
    (hs : s.Spread) (he : e.Settled s) : e.Settled (operation.run s).2 := by
  rcases h.run_cases hs with ⟨start, part, -, hrun⟩ | hpassage
  · rw [hrun]
    exact settled_written he
  · exact hpassage.settled he

theorem Allows.version_eq {α : Type} {operation : Operation α} (h : s.Allows operation)
    (hs : s.Spread) : (operation.run s).2.window.version = s.window.version := by
  rcases h.run_cases hs with ⟨start, part, -, hrun⟩ | hpassage
  · rw [hrun]
    rfl
  · exact hpassage.version_eq

theorem orderly_append {steps rest : List Step} {s : Session} :
    Orderly (steps ++ rest) s ↔ Orderly steps s ∧ Orderly rest (runSteps steps s).2 := by
  induction steps generalizing s with
  | nil => simp [Orderly, runSteps]
  | cons step steps ih => exact (and_congr_right fun _ => ih).trans and_assoc.symm

namespace Orderly

variable {steps : List Step}

theorem spread (h : Orderly steps s) (hs : s.Spread) : (runSteps steps s).2.Spread := by
  induction steps generalizing s with
  | nil => exact hs
  | cons step rest ih => exact ih h.2 (h.1.spread hs)

theorem settled (h : Orderly steps s) (hs : s.Spread) (he : e.Settled s) :
    e.Settled (runSteps steps s).2 := by
  induction steps generalizing s with
  | nil => exact he
  | cons step rest ih => exact ih h.2 (h.1.spread hs) (h.1.settled hs he)

theorem version_eq (h : Orderly steps s) (hs : s.Spread) :
    (runSteps steps s).2.window.version = s.window.version := by
  induction steps generalizing s with
  | nil => rfl
  | cons step rest ih => exact (ih h.2 (h.1.spread hs)).trans (h.1.version_eq hs)

theorem result_of_readsOnly {α : Type} {operation : FieldOperation α} {b : Binding}
    (h : Orderly steps s) (hs : s.Spread) (hsteps : ∀ step ∈ steps, step.2.owner? = none)
    (he : e.Settled s) (hb : b.InBlock s.window.version e.base e.length)
    (hr : operation.readsOnly = true) :
    (operation.run b (runSteps steps s).2.window).1 = (operation.run b s.window).1 := by
  induction steps generalizing s with
  | nil => rfl
  | cons step rest ih =>
    obtain ⟨hstep, hrest⟩ := List.forall_mem_cons.mp hsteps
    have hpassage := Operation.passage hs.sound (h.1.goesOnward hstep)
    have hblock := hpassage.sameBlock he (Nat.le_trans he.stop_le hs.sound.position_le)
    have hlater := ih h.2 (h.1.spread hs) hrest (hpassage.settled he) (by
      rw [hpassage.version_eq]
      exact hb)
    exact hlater.trans (operation.result_of_readsOnly hr hb hblock)

theorem reads_stay {α : Type} {before between after : List Step} {operation : FieldOperation α}
    {spot : Spot} {b : Binding} (h : Orderly (before ++ between ++ after) s) (hs : s.Spread)
    (hafter : ∀ step ∈ after, step.2.owner? = none) (hr : operation.readsOnly = true)
    (hreaches : (runSteps before s).2.Reaches spot owner e)
    (hb : (runSteps before s).2.bind spot = .ok b) :
    (operation.run b (runSteps (before ++ between ++ after) s).2.window).1 =
      (operation.run b (runSteps (before ++ between) s).2.window).1 := by
  obtain ⟨hfirst, hlater⟩ := orderly_append.mp h
  obtain ⟨hbefore, hbetween⟩ := orderly_append.mp hfirst
  have hopen := hbefore.spread hs
  have hversion := hbetween.version_eq hopen
  have hsettled := hbetween.settled hopen (hopen.settled owner e hreaches.extent_eq)
  have hinside := bind_inside hreaches.extent_eq hreaches.inside spot hreaches.owner_eq
    hreaches.listed b hb
  rw [← runSteps_append] at hversion hsettled
  rw [runSteps_append (before ++ between)]
  refine hlater.result_of_readsOnly (hfirst.spread hs) hafter hsettled ?_ hr
  rw [hversion]
  exact hinside

end Orderly

end Session

end SimpleBinary
