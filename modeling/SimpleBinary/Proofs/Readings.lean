import SimpleBinary.Walk

namespace SimpleBinary

mutual

def Reading.complete : Reading → Bool
  | .unreachable _ => false
  | .type _ present value => present.isOk && value.isOk
  | .enum _ present raw symbol => present.isOk && raw.isOk && symbol.isOk
  | .set _ present bits choices => present.isOk && bits.isOk && choices.isOk
  | .composite _ present members => present.isOk && completeReadings members
  | .group _ _ _ elements => completeElements elements
  | .data _ length value => length.isOk && value.isOk

def completeReadings : List Reading → Bool
  | [] => true
  | reading :: rest => reading.complete && completeReadings rest

def completeElements : List (Except Error (List Reading)) → Bool
  | [] => true
  | .ok readings :: rest => completeReadings readings && completeElements rest
  | .error _ :: _ => false

end

mutual

/-- The readings are one but for the lengths of blocks. -/
inductive Reading.Matches : Reading → Reading → Prop
  | refl (reading : Reading) : Reading.Matches reading reading
  | group (name : String) (count blockLength blockLength' : Nat)
    {elements elements' : List (Except Error (List Reading))}
    (h : MatchingElements elements elements') :
    Reading.Matches (.group name count blockLength elements)
      (.group name count blockLength' elements')

inductive MatchingReadings : List Reading → List Reading → Prop
  | nil : MatchingReadings [] []
  | cons {reading reading' : Reading} {readings readings' : List Reading}
    (h : reading.Matches reading') (hs : MatchingReadings readings readings') :
    MatchingReadings (reading :: readings) (reading' :: readings')

inductive MatchingElements : List (Except Error (List Reading)) →
    List (Except Error (List Reading)) → Prop
  | nil : MatchingElements [] []
  | cons {readings readings' : List Reading}
    {elements elements' : List (Except Error (List Reading))}
    (h : MatchingReadings readings readings') (hs : MatchingElements elements elements') :
    MatchingElements (.ok readings :: elements) (.ok readings' :: elements')

end

mutual

theorem Reading.Matches.complete_eq {reading reading' : Reading} (h : reading.Matches reading') :
    reading'.complete = reading.complete := by
  cases h with
  | refl => rfl
  | group name count blockLength blockLength' h => exact h.complete_eq

theorem MatchingReadings.complete_eq {readings readings' : List Reading}
    (h : MatchingReadings readings readings') :
    completeReadings readings' = completeReadings readings := by
  cases h with
  | nil => rfl
  | cons h hs => rw [completeReadings, completeReadings, h.complete_eq, hs.complete_eq]

theorem MatchingElements.complete_eq {elements elements' : List (Except Error (List Reading))}
    (h : MatchingElements elements elements') :
    completeElements elements' = completeElements elements := by
  cases h with
  | nil => rfl
  | cons h hs => rw [completeElements, completeElements, h.complete_eq, hs.complete_eq]

end

end SimpleBinary
