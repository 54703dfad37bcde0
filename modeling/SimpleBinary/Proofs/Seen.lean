import SimpleBinary.Proofs.Independence
import SimpleBinary.Proofs.ReadBack

namespace SimpleBinary

theorem Binding.setValue_text {b : Binding} {t : TypeDef} (hk : b.field.kind = .type t)
    (ht : t.isText) (hp : b.field.presence ≠ .constant) (hv : b.visible = true)
    {characters : Bytes} {w : Window} (hc : characters.length ≤ t.length)
    (hw : b.offset + t.length ≤ w.limit) :
    b.setValue (.text characters) w =
      (.ok ⟨⟩, w.written b.offset (characters.padded t.length)) := by
  simp only [setValue, Action.bind_apply, Action.lift_apply, typeDef_eq hk,
    constant?_of_stored hp, requireVisible_of_visible hv, ne_eq, TypeDef.primitive_of_isText ht,
    not_true_eq_false, if_false]
  exact writeText_of_le hc hw

def Field.SeenAs (f : Field) (version : UInt16) (content content' : FieldContent) : Prop :=
  ∀ (base size : Nat) (w : Window), w.version = version →
    (f.isStored → f.offset + f.extent ≤ size) → Room base size (f.wireLength content) w →
    RoundTrips [f] base (f.wireLength content) (f.store base true content)
      (fun v => f.shows version content' (f.walk base true v).1 ∧
        (f.walk base true v).2 = v.moved (f.wireLength content)) w

def SeenAs (fields : List Field) (version : UInt16) (contents contents' : List FieldContent) :
    Prop :=
  ∀ (base size : Nat) (w : Window), w.version = version → LaidOut fields size →
    Room base size (wireLengthFields fields contents) w →
    RoundTrips fields base (wireLengthFields fields contents)
      (storeFields base true fields contents)
      (fun v => showsFields version fields contents' (walkFields base true fields v).1 ∧
        (walkFields base true fields v).2 = v.moved (wireLengthFields fields contents)) w

variable {version : UInt16}

theorem Field.SeenAs.of_admits {f : Field} {content : FieldContent} (hwf : f.wellFormed version)
    (ha : f.admits content) : f.SeenAs version content content := by
  rintro base size w rfl hin hr
  exact canRoundTrip.field f base size content w hwf hin ha hr

namespace SeenAs

theorem of_admits {fields : List Field} {contents : List FieldContent}
    (hwf : wellFormedFields version fields) (ha : admitsFields fields contents) :
    SeenAs fields version contents contents := by
  rintro base size w rfl hlaid hr
  exact canRoundTrip.table fields base size contents w hwf hlaid ha hr

theorem cons {f : Field} {rest : List Field} {content content' : FieldContent}
    {contents contents' : List FieldContent} (hf : f.SeenAs version content content')
    (hrest : SeenAs rest version contents contents') :
    SeenAs (f :: rest) version (content :: contents) (content' :: contents') := by
  intro base size w hversion hlaid hr
  apply (RoundTrips.cons hlaid hr (hf base size w hversion)
    fun w₁ hversion₁ => hrest base size w₁ (hversion₁.trans hversion)).mono
  rintro v ⟨⟨hshows, hmoved⟩, hshowsRest, hmovedRest⟩
  rw [walkFields_cons, hmoved, hmovedRest, Window.moved_moved]
  exact ⟨⟨hshows, hshowsRest⟩, rfl⟩

end SeenAs

theorem Field.SeenAs.text {f : Field} {t : TypeDef} (hk : f.kind = .type t) (ht : t.isText)
    (hp : f.presence ≠ .constant) (hsince : f.since ≤ version) {characters : Bytes}
    (hc : characters.length ≤ t.length) :
    f.SeenAs version (.value (.text characters)) (.value (.text characters.untilZero)) := by
  rintro base size w rfl hin hr
  have hfixed : f.isFixed := isFixed_of_kind (by simp [hk]) (by simp [hk])
  have hf := isStored_of_fixed hfixed hp
  have hlength : f.extent = t.length := by
    rw [extent_type hk hp, TypeDef.extent_of_isText ht]
  have hle := hr.wordOf_stored_le (hin hf)
  rw [hlength] at hle
  rw [wireLength_of_fixed hfixed] at hr ⊢
  apply RoundTrips.of_written hr hf (hin hf) ((Bytes.length_padded hc).trans hlength.symm)
  · rw [store_type hk]
    exact Binding.setValue_text hk ht hp (visible_bindAt hsince base) hc hle
  · intro v hversion hread
    rw [← hversion] at hsince
    have hvalue : (f.bindAt base true v.version).value v =
        .ok (t.valueOf (characters.padded t.length)) :=
      Binding.value_of_cell ⟨visible_bindAt hsince base, hp⟩ hread hk
    rw [TypeDef.valueOf, if_neg (TypeDef.length_ne_one_of_isText ht), if_pos ht,
      Bytes.padded_untilZero] at hvalue
    rw [walk_type hk, hvalue]
    exact ⟨shows_type hk _ _, rfl⟩

namespace Market

theorem MdEntryType.raw_le (kind : MdEntryType) : kind.raw.toNat ≤ 255 := by
  cases kind with
  | unknown byte =>
    rw [raw, UInt8.toNat_toUInt64]
    exact Nat.le_of_lt_succ byte.toNat_lt
  | _ => decide

theorem EmptyBook.admits_stored (content : Content) :
    admitsFields definition.fields content.stored := by
  refine ⟨⟨by decide, Fields.securityId_numbers.admits _⟩, ⟨by decide, rfl⟩,
    ⟨by decide, Fields.tradeDate_numbers.admits _⟩, ⟨by decide, Fields.rptSeq_numbers.admits _⟩,
    trivial⟩

theorem EmptyBook.seen (content : Content) :
    SeenAs definition.fields 2 content.stored content.stored :=
  .of_admits (by decide) (admits_stored content)

theorem Entries.admits_stored (content : Content) : admitsFields group.fields content.stored := by
  refine ⟨⟨by decide, ⟨by decide, Composites.mantissa_numbers.admits _⟩, rfl, trivial⟩,
    ⟨by decide, Fields.mdEntrySize_numbers.admits _⟩, ⟨by decide, Fields.orderId_numbers.admits _⟩,
    ⟨by decide, content.mdEntryType.raw_le⟩, ⟨by decide, Fields.enteringFirm_numbers.admits _⟩,
    ⟨by decide, Fields.mdEntryPositionNo_numbers.admits _⟩, trivial⟩

namespace Snapshot

structure Content.Fits (content : Content) : Prop where
  symbol : (utf8 content.symbol).length ≤ 8
  entries : content.entries.length ≤ 255
  memo : (utf8 content.memo).length ≤ 255

instance (content : Content) : Decidable content.Fits :=
  decidable_of_iff (_ ∧ _ ∧ _)
    ⟨fun h => ⟨h.1, h.2.1, h.2.2⟩, fun h => ⟨h.symbol, h.entries, h.memo⟩⟩

variable {content : Content}

theorem Content.Fits.rest (h : content.Fits) : admitsFields
    [Fields.priceBand, Fields.securityExchange, Fields.noMdEntries, Fields.memo]
    [.value (.array ⟨.int32, elementBytes [content.lowLimit, content.highLimit]⟩), .none,
      .elements (content.entries.map Entries.Content.stored), .payload (utf8 content.memo)] := by
  refine ⟨⟨by decide, by decide, by decide, rfl, ?_⟩, rfl, ⟨?_, ?_⟩, ⟨?_, ?_⟩, trivial⟩
  · rw [TypeDef.length_elementBytes]
    rfl
  · rw [List.length_map]
    exact h.entries
  · intro element helement
    obtain ⟨entry, -, rfl⟩ := List.mem_map.mp helement
    exact Entries.admits_stored entry
  · exact Nat.mod_one _
  · rw [DataOf.elementCount]
    exact (Nat.div_le_self _ _).trans h.memo

theorem Content.Fits.admits_seen (h : content.Fits) :
    admitsFields definition.fields content.seen := by
  refine ⟨⟨by decide, Fields.securityId_numbers.admits _⟩,
    ⟨by decide, Fields.lastRptSeq_numbers.admits _⟩, ⟨by decide, by decide, ?_, ?_⟩, h.rest⟩
  · exact Bytes.notMem_untilZero _
  · exact (Bytes.length_untilZero_le _).trans h.symbol

theorem Content.Fits.seen (h : content.Fits) :
    SeenAs definition.fields 2 content.stored content.seen := by
  obtain ⟨hsecurityId, hlastRptSeq, -⟩ := h.admits_seen
  apply SeenAs.cons (.of_admits (by decide) hsecurityId)
  apply SeenAs.cons (.of_admits (by decide) hlastRptSeq)
  apply SeenAs.cons (.text (t := Types.symbol) rfl rfl (by decide) (by decide) h.symbol)
  exact .of_admits (by decide +kernel) h.rest

end Snapshot

end Market

end SimpleBinary
