import SimpleBinary.Market.Schema
import SimpleBinary.Proofs.Data
import SimpleBinary.Proofs.Frame
import SimpleBinary.Proofs.Regular
import SimpleBinary.Proofs.Spans

namespace SimpleBinary

namespace Window

def within (w : Window) (limit : Nat) (h : limit < UInt64.size) : Window :=
  { w with limit, limit_le_max := Nat.le_pred_of_lt h }

@[simp] theorem within_position (w : Window) {limit : Nat} (h : limit < UInt64.size) :
    (w.within limit h).position = w.position := rfl

@[simp] theorem within_limit (w : Window) {limit : Nat} (h : limit < UInt64.size) :
    (w.within limit h).limit = limit := rfl

end Window

/-- Where `room` more bytes than a limit are still a word, the action takes as many bytes whatever
the limit is, when they are there. When they are not, it needs the window to reach some place, and
under every limit before that place it says so. -/
structure Delimited {α : Type} (room : Nat) (x : Action Window α) : Prop where
  of_ok : ∀ {w a v}, w.position ≤ w.limit → w.limit + room < UInt64.size → x w = (.ok a, v) →
    ∃ size, v = w.moved size ∧ w.position + size ≤ w.limit ∧
      ∀ limit (h : limit < UInt64.size), w.position + size ≤ limit → limit + room < UInt64.size →
        x (w.within limit h) = (.ok a, v.within limit h)
  of_error : ∀ {w e v}, w.position ≤ w.limit → w.limit + room < UInt64.size →
    w.limit < Window.maxPosition → x w = (.error e, v) →
    ∃ required, w.limit < required ∧
      ∀ limit (h : limit < UInt64.size), w.limit ≤ limit → limit < required →
        limit + room < UInt64.size →
        (x (w.within limit h)).1 = .error (.bufferTooShort required limit)

namespace Delimited

variable {α β : Type} {room : Nat}

theorem pure (a : α) : Delimited room (Pure.pure a) where
  of_ok := by
    intro w _ _ hw _ h
    cases h
    exact ⟨0, rfl, hw, fun _ _ _ _ => rfl⟩
  of_error := by
    intro w _ _ _ _ _ h
    cases h

theorem bind {x : Action Window α} {f : α → Action Window β} (hx : Delimited room x)
    (hf : ∀ a, Delimited room (f a)) : Delimited room (x >>= f) where
  of_ok := by
    intro w b u hw hroom h
    obtain ⟨a, v, hfirst, hrest⟩ := Action.bind_eq_ok h
    obtain ⟨size, rfl, hle, hsame⟩ := hx.of_ok hw hroom hfirst
    obtain ⟨size', rfl, hle', hsame'⟩ := (hf a).of_ok (w := w.moved size) hle hroom hrest
    rw [Window.moved_position] at hle' hsame'
    refine ⟨size + size', Window.moved_moved w size size', by rw [← Nat.add_assoc]; exact hle', ?_⟩
    intro limit hl hlimit hroom'
    rw [← Nat.add_assoc] at hlimit
    rw [Action.bind_of_ok (hsame limit hl (by omega) hroom'), hsame' limit hl hlimit hroom']
  of_error := by
    intro w e u hw hroom hmax h
    cases hfirst : x w with
    | mk result v =>
      cases result with
      | error e' =>
        obtain ⟨required, hlt, hshort⟩ := hx.of_error hw hroom hmax hfirst
        refine ⟨required, hlt, ?_⟩
        intro limit hword hl hr hroom'
        have hresult := hshort limit hword hl hr hroom'
        cases hx' : x (w.within limit hword) with
        | mk result' v' =>
          rw [hx'] at hresult
          cases hresult
          rw [Action.bind_of_error hx']
      -- The first step needs no more under the other limit, so the second one fails there, too.
      | ok a =>
        obtain ⟨size, rfl, hle, hsame⟩ := hx.of_ok hw hroom hfirst
        rw [Action.bind_of_ok hfirst] at h
        obtain ⟨required, hlt, hshort⟩ := (hf a).of_error (w := w.moved size) hle hroom hmax h
        refine ⟨required, hlt, ?_⟩
        intro limit hword hl hr hroom'
        rw [Window.moved_limit] at hlt
        rw [Action.bind_of_ok (hsame limit hword (by omega) hroom')]
        exact hshort limit hword hl hr hroom'

theorem discard {x : Action Window α} (h : Delimited room x) :
    Delimited room (Functor.discard x) :=
  h.bind fun _ => .pure _

theorem get_bind {f : Window → Action Window α} (hf : ∀ w, Delimited room (f w))
    (hsame : ∀ w limit h, f (w.within limit h) = f w) : Delimited room (get >>= f) where
  of_ok := by
    intro w a v hw hroom h
    obtain ⟨size, hv, hle, hmore⟩ := (hf w).of_ok hw hroom h
    refine ⟨size, hv, hle, ?_⟩
    intro limit hword hlimit hroom'
    change f (w.within limit hword) (w.within limit hword) = _
    rw [hsame]
    exact hmore limit hword hlimit hroom'
  of_error := by
    intro w e v hw hroom hmax h
    obtain ⟨required, hlt, hshort⟩ := (hf w).of_error hw hroom hmax h
    refine ⟨required, hlt, ?_⟩
    intro limit hword hl hr hroom'
    change (f (w.within limit hword) (w.within limit hword)).1 = _
    rw [hsame]
    exact hshort limit hword hl hr hroom'

theorem of_size {x : Action Window α} (size : Nat) (result : Window → α)
    (hresult : ∀ w limit h, result (w.within limit h) = result w)
    (hle : ∀ w, w.position + size ≤ w.limit → x w = (.ok (result w), w.moved size))
    (hlt : ∀ w, w.limit < w.position + size → x w = (.error (w.tooShort (w.position + size)), w)) :
    Delimited room x where
  of_ok := by
    intro w a v hw _ h
    by_cases hfits : w.position + size ≤ w.limit
    · rw [hle w hfits] at h
      cases h
      refine ⟨size, rfl, hfits, ?_⟩
      intro limit hword hlimit _
      rw [hle (w.within limit hword) hlimit, hresult]
      rfl
    · rw [hlt w (Nat.lt_of_not_le hfits)] at h
      cases h
  of_error := by
    intro w e v hw _ hmax h
    by_cases hfits : w.position + size ≤ w.limit
    · rw [hle w hfits] at h
      cases h
    · refine ⟨min (w.position + size) Window.maxPosition, by omega, ?_⟩
      intro limit hword hl hr _
      rw [hlt (w.within limit hword)
        (by simp only [Window.within_position, Window.within_limit]; omega)]
      rfl

theorem advance (size : Nat) : Delimited room (Window.advance size) :=
  .of_size size Window.position (fun _ _ _ => rfl) (fun _ => Window.advance_of_le)
    fun _ => Window.advance_of_lt

end Delimited

theorem GroupView.delimited_bind (f : Field) {g : GroupDef} (hg : g.MembersInside)
    (visible : Bool) {room : Nat} : Delimited room (GroupView.bind f g visible) := by
  cases visible with
  | false =>
    apply Delimited.get_bind
    · exact fun w => .pure _
    · exact fun w limit _ => rfl
  | true =>
    refine .of_size g.dimension.encodedLength
      (fun w =>
        let header := w.bytes.slice w.position g.dimension.encodedLength
        ⟨f, g, w.position, g.blockLengthMember.number header, g.numInGroupMember.number header, 0,
          none, true⟩) (fun _ _ _ => rfl) ?_ ?_
    · intro w hle
      exact bind_of_header hg (Window.read_of_le hle) f
    · intro w hlt
      exact bind_of_lt hlt f

namespace DataView

variable {d : DataView} {w : Window}

def stop (d : DataView) (w : Window) : Nat :=
  w.position + d.headerLength + d.announced w * d.elementSize

theorem lengthStop_le (hd : d.definition.LengthInside) (w : Window) :
    d.lengthStop w ≤ w.position + d.headerLength := by
  have hplace := wordOf_le (w.position + d.definition.lengthMember.offset)
  have hinside : d.definition.lengthMember.offset + d.definition.lengthMember.primitive.size ≤
    d.headerLength := hd
  unfold lengthStop
  omega

theorem skip_of_no_length (hv : d.visible = true) (h : w.limit < d.lengthStop w) :
    d.skip w = (.error (w.tooShort (d.lengthStop w)), w) :=
  skip_of_error hv (payload_of_length_error (length_of_lt hv h))

section

variable (hword : w.position + d.headerLength < UInt64.size)
include hword

theorem skip_of_le (hv : d.visible = true) (hd : d.definition.LengthInside)
    (hmax : d.announced w * d.elementSize ≤ Window.maxPosition) (h : d.stop w ≤ w.limit) :
    d.skip w =
      (.ok (d.announced w), w.moved (d.headerLength + d.announced w * d.elementSize)) := by
  have hinside := lengthStop_le hd w
  have hstart := wordOf_of_lt hword
  unfold stop at h
  have hlength := length_of_le hv (show d.lengthStop w ≤ w.limit by omega)
  have hpayload := payload_of_le hlength hmax (by omega)
  rw [skip_of_payload hv hlength hpayload, (step_of_payload hpayload hword).2]
  rfl

theorem skip_of_lt (hv : d.visible = true) (hl : d.lengthStop w ≤ w.limit)
    (h : w.limit < d.stop w) : d.skip w = (.error (w.tooShort (d.stop w)), w) := by
  rw [stop, ← wordOf_of_lt hword] at h ⊢
  exact skip_of_error hv (payload_of_lt (length_of_le hv hl) h)

end

theorem delimited_skip (hd : d.definition.LengthInside) {room : Nat} (hr : d.headerLength ≤ room) :
    Delimited room d.skip := by
  cases hv : d.visible with
  | false =>
    have hskip : d.skip = return 0 := by
      simp only [skip, hv, Bool.not_false, if_true]
    rw [hskip]
    exact .pure 0
  | true =>
    constructor
    · intro w count v hw hroom h
      have hword : w.position + d.headerLength < UInt64.size := by omega
      by_cases hl : d.lengthStop w ≤ w.limit
      · by_cases hs : d.stop w ≤ w.limit
        · by_cases hmax : d.announced w * d.elementSize ≤ Window.maxPosition
          · rw [skip_of_le hword hv hd hmax hs] at h
            cases h
            have hsum : w.position + (d.headerLength + d.announced w * d.elementSize) = d.stop w :=
              (Nat.add_assoc _ _ _).symm
            refine ⟨_, rfl, by omega, ?_⟩
            intro limit hlt hlimit _
            exact skip_of_le (w := w.within limit hlt) hword hv hd hmax
              (show d.stop w ≤ limit by omega)
          · have hover := payload_of_over (length_of_le hv hl) (Nat.lt_of_not_le hmax)
            rw [skip_of_error hv hover] at h
            cases h
        · rw [skip_of_lt hword hv hl (Nat.lt_of_not_le hs)] at h
          cases h
      · rw [skip_of_no_length hv (Nat.lt_of_not_le hl)] at h
        cases h
    -- A failure is for want of the length or of the payload, and the place to reach is the end of
    -- it.
    · intro w e v hw hroom hmax h
      have hword : w.position + d.headerLength < UInt64.size := by omega
      by_cases hl : d.lengthStop w ≤ w.limit
      · have hs : w.limit < d.stop w := by
          by_contra hfits
          have hstop : d.stop w ≤ w.limit := Nat.le_of_not_lt hfits
          have hover : d.announced w * d.elementSize ≤ Window.maxPosition := by
            unfold stop at hstop
            omega
          rw [skip_of_le hword hv hd hover hstop] at h
          cases h
        refine ⟨min (d.stop w) Window.maxPosition, by omega, ?_⟩
        intro limit hlt hlow hhigh _
        have hcut : limit < d.stop w := by omega
        rw [skip_of_lt (w := w.within limit hlt) hword hv (Nat.le_trans hl hlow) hcut]
        rfl
      · refine ⟨min (d.lengthStop w) Window.maxPosition, by omega, ?_⟩
        intro limit hlt _ hhigh _
        rw [skip_of_no_length (w := w.within limit hlt) hv
          (show limit < d.lengthStop w by omega)]
        rfl

end DataView

theorem Iteration.delimited_repeatNext {room : Nat} {visit : Nat → Action Window Unit}
    (hv : ∀ base, Delimited room (visit base)) (n : Nat) :
    ∀ g : GroupView, n ≤ g.remaining → Delimited room (run g (repeatNext visit n)) := by
  induction n with
  | zero => exact fun g _ => .pure _
  | succ n ih =>
    intro g hn
    unfold GroupView.remaining at hn
    rw [run_repeatNext_succ (by omega)]
    apply Delimited.bind (.advance g.blockLength)
    intro base
    apply Delimited.bind (hv base)
    intro _
    apply ih
    simp only [GroupView.remaining, GroupView.entered]
    omega

theorem delimited_skipFields (room : Nat) :
    TableInduction (fun f => f.framed → f.span ≤ room → Delimited room f.skip)
      (fun fields => framedFields fields → spanFields fields ≤ room →
        Delimited room (skipFields fields)) := by
  apply TableInduction.of_fixed
  · intro f h h' _ _
    rw [Field.skip_of_fixed h h']
    exact .pure _
  · intro f g hk ih hframed hspan
    obtain ⟨hmembers, hfields⟩ := (Field.framed_group hk).mp hframed
    have helements : spanFields g.fields ≤ room :=
      Nat.le_trans (Nat.le_trans (Nat.le_max_left _ _) (Field.group_span_le hk)) hspan
    rw [Field.skip_group hk]
    refine .get_bind ?_ fun _ _ _ => rfl
    intro w
    apply Delimited.bind (GroupView.delimited_bind f hmembers _)
    intro view
    exact Iteration.delimited_repeatNext (fun _ => ih hfields helements) view.remaining view
      (Nat.le_refl _)
  · intro f d hk hframed hspan
    have hheader : d.headerLength ≤ room :=
      Nat.le_trans (Nat.le_trans (Nat.le_max_right _ _) (Field.data_span_le hk)) hspan
    rw [Field.skip_data hk]
    refine .get_bind ?_ fun _ _ _ => rfl
    intro w
    exact .discard (DataView.delimited_skip ((Field.framed_data hk).mp hframed) hheader)
  · intro _ _
    exact .pure _
  · intro f rest hf ih hframed hspan
    obtain ⟨hfirst, hrest⟩ := framedFields_cons.mp hframed
    obtain ⟨hspanFirst, hspanRest⟩ := Nat.max_le.mp hspan
    exact .bind (hf hfirst hspanFirst) fun _ => ih hrest hspanRest

namespace Message

def measure (definition : MessageDef) (bytes : Bytes) (offset blockLength : Nat) (version : UInt16)
    (limit : Nat) : Except Error (Nat × Nat) := do
  let m ← wrapForDecode bytes offset limit blockLength version definition
  let (length, m) ← skip.complete m
  return (length, m.position)

variable {bytes : Bytes} {offset limit blockLength : Nat} {version : UInt16}
  {definition : MessageDef}

theorem measure_of_over (h : Window.maxPosition < offset + blockLength) :
    measure definition bytes offset blockLength version limit =
      .error (.bufferTooShort Window.maxPosition limit) := by
  rw [measure, wrapForDecode_eq, if_pos h]
  rfl

theorem measure_of_lt (hbytes : limit ≤ bytes.length)
    (hmax : offset + blockLength ≤ Window.maxPosition) (h : limit < offset + blockLength) :
    measure definition bytes offset blockLength version limit =
      .error (.bufferTooShort (offset + blockLength) limit) := by
  rw [measure, wrapForDecode_eq, if_neg (Nat.not_lt.mpr hmax),
    Window.open?_of_le hbytes (by omega), if_pos h]
  rfl

theorem measure_of_le (hbytes : limit ≤ bytes.length) (hmax : limit ≤ Window.maxPosition)
    (h : offset + blockLength ≤ limit) :
    measure definition bytes offset blockLength version limit =
      ((skipFields definition.fields).complete
        ⟨bytes, limit, offset + blockLength, version, hmax⟩).map
        fun (_, w) => (w.position - offset, w.position) := by
  rw [measure, wrapForDecode_of_le hbytes h hmax, Action.ok_bind, Action.complete,
    skip_of_wrapped rfl h]
  dsimp only
  rw [Action.complete]
  rcases skipFields definition.fields ⟨bytes, limit, offset + blockLength, version, hmax⟩ with
    ⟨result, w⟩
  cases result <;> rfl

section

variable (hframed : framedFields definition.fields) (hbytes : bytes.length < Window.maxPosition)
  (hspan : bytes.length + spanFields definition.fields < UInt64.size)
  (hlimit : limit ≤ bytes.length)
include hframed hbytes hspan hlimit

theorem measure_eq_ok {length stop : Nat}
    (h : measure definition bytes offset blockLength version limit = .ok (length, stop)) :
    stop ≤ limit ∧ ∀ l, stop ≤ l → l ≤ bytes.length →
      measure definition bytes offset blockLength version l = .ok (length, stop) := by
  by_cases hmax : Window.maxPosition < offset + blockLength
  · rw [measure_of_over hmax] at h
    cases h
  by_cases hle : offset + blockLength ≤ limit
  · have hword : limit ≤ Window.maxPosition := by omega
    rw [measure_of_le hlimit hword hle, Action.complete] at h
    cases hskip :
        skipFields definition.fields ⟨bytes, limit, offset + blockLength, version, hword⟩ with
    | mk result w =>
      rw [hskip] at h
      cases result with
      | error e => cases h
      | ok a =>
        cases h
        -- The fields take as many bytes under every limit that holds them.
        obtain ⟨size, rfl, hstop, hsame⟩ :=
          ((delimited_skipFields _).table definition.fields hframed (Nat.le_refl _)).of_ok hle
            (by simp only; omega) hskip
        refine ⟨hstop, ?_⟩
        intro l hl hlength
        rw [Window.moved_position] at hl
        have hword' : l ≤ Window.maxPosition := by omega
        rw [measure_of_le hlength hword' (by dsimp only at hl; omega), Action.complete]
        have hmore :
            skipFields definition.fields ⟨bytes, l, offset + blockLength, version, hword'⟩ = _ :=
          hsame l (by omega) hl (by omega)
        rw [hmore]
        rfl
  · rw [measure_of_lt hlimit (Nat.le_of_not_lt hmax) (Nat.lt_of_not_le hle)] at h
    cases h

theorem measure_eq_error {e : Error}
    (h : measure definition bytes offset blockLength version limit = .error e) :
    ∃ required, limit < required ∧ ∀ l, limit ≤ l → l < required → l ≤ bytes.length →
      measure definition bytes offset blockLength version l =
        .error (.bufferTooShort required l) := by
  by_cases hmax : Window.maxPosition < offset + blockLength
  · exact ⟨Window.maxPosition, by omega, fun l _ _ _ => measure_of_over hmax⟩
  by_cases hle : offset + blockLength ≤ limit
  · have hword : limit ≤ Window.maxPosition := by omega
    rw [measure_of_le hlimit hword hle, Action.complete] at h
    cases hskip :
        skipFields definition.fields ⟨bytes, limit, offset + blockLength, version, hword⟩ with
    | mk result w =>
      rw [hskip] at h
      cases result with
      | ok a => cases h
      | error e' =>
        obtain ⟨required, hlt, hshort⟩ :=
          ((delimited_skipFields _).table definition.fields hframed (Nat.le_refl _)).of_error hle
            (by simp only; omega) (show limit < Window.maxPosition by omega) hskip
        refine ⟨required, hlt, ?_⟩
        intro l hl hr hlength
        have hword' : l ≤ Window.maxPosition := by omega
        have hresult : (skipFields definition.fields
            ⟨bytes, l, offset + blockLength, version, hword'⟩).1 = _ :=
          hshort l (by omega) hl hr (by omega)
        rw [measure_of_le hlength hword' (by omega), Action.complete]
        revert hresult
        rcases skipFields definition.fields
          ⟨bytes, l, offset + blockLength, version, hword'⟩ with ⟨result, w'⟩
        rintro rfl
        rfl
  · exact ⟨offset + blockLength, Nat.lt_of_not_le hle, fun l _ hr hlength =>
      measure_of_lt hlength (Nat.le_of_not_lt hmax) hr⟩

end

/-- A message tells where it ends: under every limit that it fits it is skipped to the same
position, and under the others the error names a place that the limit would have to reach. No byte
string is as long as the greatest position. -/
theorem measure_under_limits (definition : MessageDef) (hframed : framedFields definition.fields)
    (bytes : Bytes) (hbytes : bytes.length < Window.maxPosition)
    (hspan : bytes.length + spanFields definition.fields < UInt64.size) (offset blockLength : Nat)
    (version : UInt16) (limit longer : Nat) (hl : limit ≤ longer)
    (hlonger : longer ≤ bytes.length) :
    (∀ length stop,
      measure definition bytes offset blockLength version limit = .ok (length, stop) →
      measure definition bytes offset blockLength version longer = .ok (length, stop)) ∧
    (∀ length stop,
      measure definition bytes offset blockLength version longer = .ok (length, stop) →
      (∀ l, stop ≤ l → l ≤ bytes.length →
        measure definition bytes offset blockLength version l = .ok (length, stop)) ∧
      ∀ l < stop, ∃ required, measure definition bytes offset blockLength version l =
        .error (.bufferTooShort required l)) ∧
    ∀ e, measure definition bytes offset blockLength version limit = .error e →
      ∃ required, limit < required ∧ e = .bufferTooShort required limit ∧
        ∀ l, limit ≤ l → l < required → l ≤ bytes.length →
          measure definition bytes offset blockLength version l =
            .error (.bufferTooShort required l) := by
  have hlimit : limit ≤ bytes.length := Nat.le_trans hl hlonger
  refine ⟨?_, ?_, ?_⟩
  · intro length stop h
    obtain ⟨hstop, hsame⟩ := measure_eq_ok hframed hbytes hspan hlimit h
    exact hsame longer (Nat.le_trans hstop hl) hlonger
  · intro length stop h
    obtain ⟨hstop, hsame⟩ := measure_eq_ok hframed hbytes hspan hlonger h
    refine ⟨hsame, ?_⟩
    intro l hlt
    have hlength : l ≤ bytes.length := by omega
    -- A limit before the stop cannot be a success: it would come to the same stop.
    cases hcut : measure definition bytes offset blockLength version l with
    | error e =>
      obtain ⟨required, hr, hshort⟩ := measure_eq_error hframed hbytes hspan hlength hcut
      have hself := hshort l (Nat.le_refl l) hr hlength
      exact ⟨required, by rw [← hcut]; exact hself⟩
    | ok found =>
      obtain ⟨hstop', hsame'⟩ := measure_eq_ok hframed hbytes hspan hlength hcut
      have hagain := hsame' longer (by omega) hlonger
      rw [h] at hagain
      cases hagain
      omega
  · intro e h
    obtain ⟨required, hr, hshort⟩ := measure_eq_error hframed hbytes hspan hlimit h
    have hself := hshort limit (Nat.le_refl limit) hr hlimit
    rw [h] at hself
    cases hself
    exact ⟨required, hr, rfl, hshort⟩

theorem measure_under_limits_snapshot :
    framedFields Market.Snapshot.definition.fields ∧ (32 : Nat) < Window.maxPosition ∧
    32 + spanFields Market.Snapshot.definition.fields < UInt64.size ∧
    measure Market.Snapshot.definition (List.replicate 32 0) 0 28 2 32 = .ok (32, 32) ∧
    (∀ l < 32, ∃ required, measure Market.Snapshot.definition (List.replicate 32 0) 0 28 2 l =
      .error (.bufferTooShort required l)) ∧
    ∃ required, 30 < required ∧
      measure Market.Snapshot.definition (List.replicate 32 0) 0 28 2 30 =
        .error (.bufferTooShort required 30) := by
  have hframed : framedFields Market.Snapshot.definition.fields := by decide
  have hbytes : (List.replicate 32 0 : Bytes).length < Window.maxPosition := by decide
  have hspan : (List.replicate 32 0 : Bytes).length +
      spanFields Market.Snapshot.definition.fields < UInt64.size := by decide
  have hwhole : measure Market.Snapshot.definition (List.replicate 32 0) 0 28 2 32 =
      .ok (32, 32) := rfl
  obtain ⟨-, hcut, hshort⟩ := measure_under_limits Market.Snapshot.definition hframed
    (List.replicate 32 0) hbytes hspan 0 28 2 30 32 (by decide) (by decide)
  obtain ⟨-, hbefore⟩ := hcut 32 32 hwhole
  obtain ⟨required, hlt, he, -⟩ := hshort _ rfl
  exact ⟨hframed, by decide, hspan, hwhole, hbefore, required, hlt, congrArg _ he⟩

end Message

namespace Parcel

def encoding : CompositeDef :=
  ⟨"encoding", [.required "length" 0 0 (.type (.plain "uint8" .uint8 1)),
    .required "varData" 0 18446744073709551614 (.type (.plain "char" .char 0))],
    18446744073709551614⟩

def note : DataDef :=
  { name := "Note"
    encoding := encoding
    lengthMember := ⟨0, .uint8⟩
    varDataMember := ⟨18446744073709551614, .char⟩ }

theorem note_checked : DataOf.checked "Note" encoding = .ok note := rfl

def definition : MessageDef :=
  ⟨"Parcel", 1, 2, [.required "note" 1 0 (.data note)], ⟨"parcels", 1, 0⟩⟩

end Parcel

theorem Message.measure_short_of_length :
    framedFields Parcel.definition.fields ∧
    measure Parcel.definition [0, 0, 2] 0 2 0 3 = .ok (2, 2) ∧
    measure Parcel.definition [0, 0, 2] 0 2 0 2 = .error (.bufferTooShort 3 2) :=
  ⟨by decide, rfl, rfl⟩

end SimpleBinary
