import SimpleBinary.Proofs.Keeping

/-!
A walk with the positions that it goes through. The trail of a walk is what it shows one after the
other, the fields and the beginnings of elements, each with the positions before and after it.
-/

namespace SimpleBinary

inductive Part where
  | field (reading : Reading)
  | group (name : String) (count blockLength : Nat)
  | element (result : Except Error Unit)

mutual

def Reading.parts : Reading → List Part
  | .group name count blockLength elements =>
    .group name count blockLength :: elementParts elements
  | reading => [.field reading]

def readingParts : List Reading → List Part
  | [] => []
  | reading :: rest => reading.parts ++ readingParts rest

def elementParts : List (Except Error (List Reading)) → List Part
  | [] => []
  | .ok readings :: rest => .element (.ok ()) :: (readingParts readings ++ elementParts rest)
  | .error reason :: rest => .element (.error reason) :: elementParts rest

end

structure Sight where
  field : Option Field
  part : Part
  start : Nat
  stop : Nat

namespace Trail

def elements (follow : Nat → StateM Window (List Sight)) : Nat → StateM Iteration (List Sight)
  | 0 => return []
  | n + 1 => fun it =>
    let start := it.window.position
    match Iteration.next it with
    | (.error reason, it) =>
      ([⟨none, .element (.error reason), start, it.window.position⟩], it)
    | (.ok base, it) =>
      let (sights, window) := follow base it.window
      let (rest, last) := elements follow n { it with window }
      (⟨none, .element (.ok ()), start, it.window.position⟩ :: (sights ++ rest), last)

end Trail

mutual

def Field.trail (base : Nat) : Field → StateM Window (List Sight)
  | f@⟨_, _, _, .group g, _, _, _⟩ => fun w =>
    match GroupView.bind f g (f.inVersion w.version) w with
    | (.error reason, v) =>
      ([⟨some f, .field (.unreachable reason), w.position, v.position⟩], v)
    | (.ok view, v) =>
      let follow := Trail.elements (fun base => trailFields base g.fields) view.count
      let (sights, it) := follow ⟨view, v⟩
      (⟨some f, .group f.name view.count view.blockLength, w.position, v.position⟩ :: sights,
        it.window)
  | f => fun w =>
    let (reading, v) := f.walk base true w
    ([⟨some f, .field reading, w.position, v.position⟩], v)

def trailFields (base : Nat) : List Field → StateM Window (List Sight)
  | [] => return []
  | f :: rest => fun w =>
    let (sights, v) := f.trail base w
    let (others, last) := trailFields base rest v
    (sights ++ others, last)

end

def Message.trail (m : Message) : List Sight × Window :=
  trailFields m.offset m.definition.fields m.window

namespace Trail

variable {follow : Nat → StateM Window (List Sight)} {n : Nat} {it it' : Iteration}

theorem elements_of_ok {base : Nat} (h : Iteration.next it = (.ok base, it')) :
    elements follow (n + 1) it =
      (⟨none, .element (.ok ()), it.window.position, it'.window.position⟩ ::
        ((follow base it'.window).1 ++
          (elements follow n { it' with window := (follow base it'.window).2 }).1),
      (elements follow n { it' with window := (follow base it'.window).2 }).2) := by
  simp only [elements, h]
  rfl

theorem elements_of_error {reason : Error} (h : Iteration.next it = (.error reason, it')) :
    elements follow (n + 1) it =
      ([⟨none, .element (.error reason), it.window.position, it'.window.position⟩], it') := by
  simp only [elements, h]

end Trail

namespace Field

variable {f : Field} {base : Nat} {w v : Window}

theorem trail_of_not_group (h : ∀ g, f.kind ≠ .group g) :
    f.trail base w =
      ([⟨some f, .field (f.walk base true w).1, w.position, (f.walk base true w).2.position⟩],
        (f.walk base true w).2) := by
  obtain ⟨name, id, offset, kind, presence, constant, since⟩ := f
  cases kind with
  | group g => exact absurd rfl (h g)
  | _ => rfl

theorem trail_group_of_ok {g : GroupDef} (hk : f.kind = .group g) {view : GroupView}
    (hb : GroupView.bind f g (f.inVersion w.version) w = (.ok view, v)) :
    f.trail base w =
      (⟨some f, .group f.name view.count view.blockLength, w.position, v.position⟩ ::
        (Trail.elements (fun base => trailFields base g.fields) view.count ⟨view, v⟩).1,
      (Trail.elements (fun base => trailFields base g.fields) view.count ⟨view, v⟩).2.window) := by
  obtain ⟨name, id, offset, kind, presence, constant, since⟩ := f
  cases hk
  simp only [trail, hb]
  rfl

theorem trail_group_of_error {g : GroupDef} (hk : f.kind = .group g) {reason : Error}
    (hb : GroupView.bind f g (f.inVersion w.version) w = (.error reason, v)) :
    f.trail base w = ([⟨some f, .field (.unreachable reason), w.position, v.position⟩], v) := by
  obtain ⟨name, id, offset, kind, presence, constant, since⟩ := f
  cases hk
  simp only [trail, hb]

end Field

theorem trailFields_cons (base : Nat) (f : Field) (rest : List Field) (w : Window) :
    trailFields base (f :: rest) w =
      ((f.trail base w).1 ++ (trailFields base rest (f.trail base w).2).1,
      (trailFields base rest (f.trail base w).2).2) := rfl

theorem trail_elements {fields : List Field}
    (ih : ∀ base w, ((trailFields base fields w).1.map Sight.part, (trailFields base fields w).2) =
      (readingParts (walkFields base true fields w).1, (walkFields base true fields w).2))
    (n : Nat) (it : Iteration) :
    ((Trail.elements (fun base => trailFields base fields) n it).1.map Sight.part,
      (Trail.elements (fun base => trailFields base fields) n it).2) =
    (elementParts (Walk.elements (fun base => walkFields base true fields) n it).1,
      (Walk.elements (fun base => walkFields base true fields) n it).2) := by
  induction n generalizing it with
  | zero => rfl
  | succ n hn =>
    cases hnext : Iteration.next it with
    | mk result it' =>
      cases result with
      | error reason =>
        rw [Trail.elements_of_error hnext, Walk.elements_of_error hnext]
        rfl
      | ok base =>
        obtain ⟨hparts, hwindow⟩ := Prod.mk.inj (ih base it'.window)
        obtain ⟨hrest, hlast⟩ := Prod.mk.inj
          (hn { it' with window := (trailFields base fields it'.window).2 })
        rw [Trail.elements_of_ok hnext, Walk.elements_of_ok hnext, List.map_cons, List.map_append,
          hparts, hrest, hlast, hwindow, elementParts]

theorem trail_walk :
    TableInduction
      (fun f => ∀ base w, ((f.trail base w).1.map Sight.part, (f.trail base w).2) =
        ((f.walk base true w).1.parts, (f.walk base true w).2))
      (fun fields => ∀ base w,
        ((trailFields base fields w).1.map Sight.part, (trailFields base fields w).2) =
          (readingParts (walkFields base true fields w).1,
            (walkFields base true fields w).2)) where
  type f t hk := by
    intro base w
    rw [Field.trail_of_not_group (by simp [hk]), Field.walk_type hk]
    rfl
  enum f e hk := by
    intro base w
    rw [Field.trail_of_not_group (by simp [hk]), Field.walk_enum hk]
    rfl
  set f s hk := by
    intro base w
    rw [Field.trail_of_not_group (by simp [hk]), Field.walk_set hk]
    rfl
  -- A composite is shown as a whole, so its members play no part.
  composite f c hk _ := by
    intro base w
    rw [Field.trail_of_not_group (by simp [hk]), Field.walk_composite hk]
    rfl
  group f g hk ih := by
    intro base w
    cases hbind : GroupView.bind f g (f.inVersion w.version) w with
    | mk result v =>
      have hwalk : GroupView.bind f g (true && f.inVersion w.version) w = (result, v) := hbind
      cases result with
      | error reason =>
        rw [Field.trail_group_of_error hk hbind, Field.walk_group_of_error hk hwalk]
        rfl
      | ok view =>
        obtain ⟨hparts, hlast⟩ := Prod.mk.inj (trail_elements ih view.count ⟨view, v⟩)
        rw [Field.trail_group_of_ok hk hbind, Field.walk_group_of_ok hk hwalk, List.map_cons,
          hparts, hlast]
        rfl
  data f d hk := by
    intro base w
    rw [Field.trail_of_not_group (by simp [hk]), Field.walk_data hk]
    rfl
  nil := fun _ _ => rfl
  cons f rest hf ih := by
    intro base w
    obtain ⟨hparts, hwindow⟩ := Prod.mk.inj (hf base w)
    obtain ⟨hrest, hlast⟩ := Prod.mk.inj (ih base (f.trail base w).2)
    rw [trailFields_cons, walkFields_cons, List.map_append, hparts, hrest, hlast, hwindow]
    rfl

theorem Message.trail_body (m : Message) :
    (m.trail.1.map Sight.part, m.trail.2) =
      (readingParts (m.body.walk m.window).1, (m.body.walk m.window).2) :=
  trail_walk.table _ _ _

end SimpleBinary
