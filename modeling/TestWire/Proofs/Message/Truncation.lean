import TestWire.Proofs.Message.Concatenation
import TestWire.Proofs.Message.DepthLimits
import TestWire.Proofs.Message.Written
import TestWire.Proofs.Wire.Truncation

/-! # Messages that are cut short

Cut off between two fields at the top level, an input decodes to fewer fields.  Cut off anywhere
else it is truncated and nothing else, since a nested region is only looked into once all of it is
there.
-/

namespace TestWire

namespace Merged

variable {μ : Type}

/-- The merge fails because the input ends too early. -/
def RunsOut {α : Type} (merged : Merged μ α) : Prop :=
  ∃ error, merged.outcome = .error error ∧ error.category = .truncated

/-- A field merged from an input is merged from its front as well, or the front ends in it. -/
def FindsCut (take : Bytes → Merged μ Bytes) : Prop :=
  ∀ (cut missing : Bytes) (m : μ) (rest : Bytes), take (cut ++ missing) = ⟨m, .ok rest⟩ →
    (∃ between, take cut = ⟨m, .ok between⟩ ∧ rest = between ++ missing) ∨ (take cut).RunsOut

theorem field_findsCut {α : Type} {read : Reader α} (h : read.FindsCut) (set : μ → α → μ) (m : μ) :
    FindsCut (field read set m) := by
  intro cut missing m' rest hfield
  unfold field at hfield ⊢
  split at hfield
  · next a behind hread =>
      cases hfield
      rcases h _ _ _ _ hread with ⟨between, hcut, rfl⟩ | ⟨error, after, hcut, herror⟩
      · exact .inl ⟨between, by rw [hcut], rfl⟩
      · exact .inr ⟨error, by rw [hcut], herror⟩
  · cases hfield

/-- A nested region is not looked into before all of it is there. -/
theorem nested_findsCut (max : Nat) (name : String) (deeper : Option (Region μ)) (m : μ) :
    FindsCut (nested max name deeper m) := by
  intro cut missing m' rest hnested
  unfold nested at hnested ⊢
  split at hnested
  · cases hnested
  · next merge =>
      split at hnested
      · cases hnested
      · next body behind hread =>
          rcases Reader.prefixed_findsCut name _ _ _ _ hread with
            ⟨between, hcut, rfl⟩ | ⟨error, after, hcut, herror⟩
          · simp only [hcut]
            cases hmerge : merge m body with
            | mk inner outcome =>
                rw [hmerge] at hnested
                cases outcome with
                | error error => cases hnested
                | ok =>
                    cases hnested
                    exact .inl ⟨between, rfl, rfl⟩
          · exact .inr ⟨error, by rw [hcut], herror⟩

section

variable {step : Step μ} (hstep : ∀ tag m, FindsCut (step tag m))

include hstep

/-- On the front of an input, a round ends the fields, goes on in the same way or runs out. -/
theorem advance_cut {m m' : μ} {cut missing : Bytes} {rest? : Option Bytes}
    (h : advance step m (cut ++ missing) = ⟨m', .ok rest?⟩) :
    (∃ m'', advance step m cut = ⟨m'', .ok none⟩) ∨
      (∃ between, rest? = some (between ++ missing) ∧
        advance step m cut = ⟨m', .ok (some between)⟩) ∨
      (advance step m cut).RunsOut := by
  unfold RunsOut
  unfold advance at h ⊢
  by_cases hempty : cut.isEmpty
  · rw [if_pos hempty]
    exact .inl ⟨m, rfl⟩
  · have hwhole : ¬ (cut ++ missing).isEmpty := by
      rw [List.isEmpty_iff] at hempty ⊢
      exact List.append_ne_nil_of_left_ne_nil hempty missing
    rw [if_neg hempty]
    rw [if_neg hwhole] at h
    cases hread : Tag.read (cut ++ missing) with
    | error error rest => simp [hread] at h
    | ok tag? rest =>
        rw [hread] at h
        rcases Tag.read_findsCut _ _ _ _ hread with
          ⟨between, hcut, rfl⟩ | ⟨error, after, hcut, herror⟩
        · rw [hcut]
          cases tag? with
          | none => exact .inl ⟨m, rfl⟩
          | some tag =>
              dsimp only at h ⊢
              by_cases hend : tag.wireType = .endGroup
              · rw [if_pos hend]
                exact .inl ⟨m, rfl⟩
              · rw [if_neg hend] at h ⊢
                cases hfield : step tag m (between ++ missing) with
                | mk m₁ outcome =>
                    rw [hfield] at h
                    cases outcome with
                    | error error => cases h
                    | ok rest =>
                        cases h
                        rcases hstep tag m _ _ _ _ hfield with
                          ⟨between', hcut', rfl⟩ | ⟨error, hcut', herror⟩
                        · rw [hcut']
                          exact .inr (.inl ⟨between', rfl, rfl⟩)
                        · rw [hcut']
                          exact .inr (.inr ⟨error, rfl, herror⟩)
        · rw [hcut]
          exact .inr (.inr ⟨error, rfl, herror⟩)

theorem fields_cut {bound : Nat} {m m' : μ} {cut missing : Bytes}
    (h : fields step bound m (cut ++ missing) = ⟨m', .ok ()⟩) :
    (∃ m'', fields step bound m cut = ⟨m'', .ok ()⟩) ∨ (fields step bound m cut).RunsOut := by
  induction bound generalizing m cut with
  | zero => exact .inl ⟨m, rfl⟩
  | succ bound ih =>
      unfold RunsOut
      rw [fields_succ] at h ⊢
      cases hround : advance step m (cut ++ missing) with
      | mk m₁ outcome =>
          rw [hround] at h
          cases outcome with
          | error error => cases h
          | ok rest? =>
              rcases advance_cut hstep hround with
                ⟨m₂, hcut⟩ | ⟨between, rfl, hcut⟩ | ⟨error, hcut, herror⟩
              · rw [hcut]
                exact .inl ⟨m₂, rfl⟩
              · rw [hcut]
                exact ih h
              · rcases hmerged : advance step m cut with ⟨m₂, outcome⟩
                rw [hmerged] at hcut
                cases hcut
                exact .inr ⟨error, rfl, herror⟩

theorem region_cut {form : Tag → μ → Bytes → μ → Prop} (htakes : Takes step form) {m m' : μ}
    {cut missing : Bytes} (h : region step m (cut ++ missing) = ⟨m', .ok ()⟩) :
    (∃ m'', region step m cut = ⟨m'', .ok ()⟩) ∨ (region step m cut).RunsOut := by
  have hbound : cut.length < (cut ++ missing).length + 1 := by
    rw [List.length_append]
    omega
  unfold region at h ⊢
  rw [htakes.fields_eq_fields (Nat.lt_succ_self cut.length) hbound]
  exact fields_cut hstep h

end

end Merged

/-! ## Fields of messages -/

theorem Scalar.reader?_findsCut {c : Case} {read : Reader Scalar} (h : reader? c = some read) :
    read.FindsCut :=
  reader?_induction (fun f hread => hread.map f) Reader.prefixed_findsCut Reader.varint_findsCut
    Reader.int32_findsCut Reader.text_findsCut Reader.fixed64_findsCut h

theorem Value.mergeAggregate_findsCut (max : Nat) (deeper : Option (Merged.Region Composite))
    (v : Value) : Merged.FindsCut (mergeAggregate max deeper v) := by
  intro cut missing v' rest h
  obtain ⟨c, hnested, rfl⟩ := mergeAggregate_eq_ok_iff.mp h
  rcases Merged.nested_findsCut _ _ _ _ _ _ _ _ hnested with ⟨between, hcut, rfl⟩ | hcut
  · exact .inl ⟨between, mergeAggregate_eq_ok_iff.mpr ⟨c, hcut, rfl⟩, rfl⟩
  · refine .inr ?_
    unfold Merged.RunsOut
    rw [outcome_mergeAggregate]
    exact hcut

theorem Value.mergeField_findsCut (max left : Nat) (deeper : Option (Merged.Region Composite))
    (tag : Tag) (v : Value) :
    Merged.FindsCut fun input => mergeField max left deeper tag v input := by
  unfold mergeField
  cases Case.ofTag? tag with
  | none => exact Merged.field_findsCut (UnknownField.read_findsCut max left tag) _ v
  | some c =>
      cases hread : Scalar.reader? c with
      | none =>
          simp only [hread]
          exact mergeAggregate_findsCut max deeper v
      | some read =>
          simp only [hread]
          exact Merged.field_findsCut (Scalar.reader?_findsCut hread) _ v

theorem Composite.mergeField_findsCut (max left : Nat) (deeper : Option (Merged.Region Value))
    (tag : Tag) (c : Composite) :
    Merged.FindsCut fun input => mergeField max left deeper tag c input := by
  by_cases htag : tag = elementTag
  · cases htag
    intro cut missing c' rest h
    obtain ⟨v, hnested, rfl⟩ := mergeField_element_eq_ok_iff.mp h
    rcases Merged.nested_findsCut _ _ _ _ _ _ _ _ hnested with ⟨between, hcut, rfl⟩ | hcut
    · exact .inl ⟨between, mergeField_element_eq_ok_iff.mpr ⟨v, hcut, rfl⟩, rfl⟩
    · refine .inr ?_
      unfold Merged.RunsOut
      rw [outcome_mergeField_element]
      exact hcut
  · unfold mergeField
    simp only [if_neg htag]
    exact Merged.field_findsCut (UnknownField.read_findsCut max left tag) _ c

theorem BitString.mergeField_findsCut (max left : Nat) (tag : Tag) (b : BitString) :
    Merged.FindsCut fun input => mergeField max left tag b input := by
  unfold mergeField
  by_cases hdata : tag = dataTag
  · simp only [if_pos hdata]
    exact Merged.field_findsCut (Reader.prefixed_findsCut _) _ b
  · by_cases hnbits : tag = nbitsTag
    · simp only [if_neg hdata, if_pos hnbits]
      exact Merged.field_findsCut (Reader.int32_findsCut _) _ b
    · simp only [if_neg hdata, if_neg hnbits]
      exact Merged.field_findsCut (UnknownField.read_findsCut max left tag) _ b

namespace Message

variable {s : Schema}

theorem mergeField_findsCut (max left : Nat) (tag : Tag) (m : Message s) :
    Merged.FindsCut (mergeField max left tag m) := by
  cases s with
  | value => exact Value.mergeField_findsCut max left _ tag m
  | composite => exact Composite.mergeField_findsCut max left _ tag m
  | bits => exact BitString.mergeField_findsCut max left tag m

theorem merge_cut {limits : DecodeLimits} {a m : Message s} {cut missing : Bytes}
    (h : merge limits a (cut ++ missing) = ⟨m, .ok ()⟩) :
    (∃ m', merge limits a cut = ⟨m', .ok ()⟩) ∨ (merge limits a cut).RunsOut := by
  have hsize : (cut ++ missing).length ≤ limits.maxSize := (merge_ok_iff.mp h).1
  have hcut : cut.length ≤ limits.maxSize := by
    rw [List.length_append] at hsize
    omega
  rw [merge_eq_mergeInput hsize, mergeInput_eq_region] at h
  rw [merge_eq_mergeInput hcut, mergeInput_eq_region]
  exact Merged.region_cut (mergeField_findsCut _ _) (mergeField_takes s _ _) h

theorem decode_cut {limits : DecodeLimits} {m : Message s} {cut missing : Bytes}
    (h : decode s limits (cut ++ missing) = .ok m) :
    (∃ m', decode s limits cut = .ok m') ∨
      ∃ error, decode s limits cut = .error error ∧ error.category = .truncated := by
  have hmerge : merge limits (empty s) (cut ++ missing) = ⟨m, .ok ()⟩ :=
    merge_ok_iff.mpr (decode_eq_ok_iff.mp h)
  unfold decode
  rcases merge_cut hmerge with ⟨m', hcut⟩ | ⟨error, hcut, herror⟩
  · exact .inl ⟨m', by rw [hcut]; rfl⟩
  · exact .inr ⟨error, by simp only [hcut]; rfl, herror⟩

/-! ## Encodings that are cut short -/

/-- The fields of an input that has no early end are more than those of what it is cut down to. -/
theorem length_fields_cut_lt {limits : DecodeLimits} {m m' : Message s} {cut missing : Bytes}
    {fields : List UnknownField} (hfields : FieldRow.Covers ⟨fields, []⟩ (cut ++ missing))
    (h : decode s limits (cut ++ missing) = .ok m) (hcut : decode s limits cut = .ok m')
    (hmissing : missing ≠ []) : (FieldRow.ofInput cut).fields.length < fields.length := by
  have hmerges := (decode_eq_ok_iff.mp h).2
  have hmerges' := (decode_eq_ok_iff.mp hcut).2
  obtain ⟨⟨hspells, hended⟩, _⟩ := hmerges'.covers_and_makes
  have hrow := hfields.ofInput_eq
  have hlonger := hspells.append missing
  rcases hended with hbehind | ⟨front, rest, hbehind, hends⟩
  · have hmore : Merges limits.maxDepth m' missing m := by
      have happend := mergeInput_append hmerges' missing
      rw [mergeInput_eq_ok_iff.mpr hmerges, hbehind, List.nil_append] at happend
      exact mergeInput_eq_ok_iff.mp happend.symm
    obtain ⟨⟨hspells', hended'⟩, _⟩ := hmore.covers_and_makes
    rw [hbehind, List.nil_append] at hlonger
    have hcovers := FieldRow.Covers.mk (hlonger.trans hspells') hended'
    rw [hcovers.ofInput_eq, FieldRow.mk.injEq] at hrow
    have hpos := List.length_pos_iff.mpr (hspells'.fields_ne_nil hrow.2 hmissing)
    have hlength := congrArg List.length hrow.1
    rw [List.length_append] at hlength
    dsimp only at hlength hpos
    omega
  · have hterminated : FieldRow.Terminated
        ⟨(FieldRow.ofInput cut).fields, (FieldRow.ofInput cut).behind ++ missing⟩ :=
      ⟨front, rest ++ missing, by rw [hbehind, List.append_assoc], hends⟩
    have hcovers := FieldRow.Covers.mk hlonger (.inr hterminated)
    rw [hcovers.ofInput_eq, FieldRow.mk.injEq, List.append_eq_nil_iff] at hrow
    exact (hmissing hrow.2.2).elim

/-- What is left of an encoding decodes to a message of fewer fields, if it decodes. -/
theorem fieldCount_cut_lt {source : Message s} (hgenuine : source.Genuine) {maxDepth : Nat}
    {cut missing : Bytes} (hencode : encode maxDepth source = .ok (cut ++ missing))
    (hmissing : missing ≠ []) {limits : DecodeLimits} {m m' : Message s}
    (h : decode s limits (cut ++ missing) = .ok m) (hcut : decode s limits cut = .ok m') :
    m'.fieldCount < m.fieldCount := by
  have hintact := hgenuine.intact hencode
  obtain ⟨_, hsize, hplain⟩ := encode_eq_ok_iff.mp hencode
  have hlength : source.plain.length < 2 ^ 64 := by
    simp only [Limits.maxEncodedSize] at hsize
    omega
  have hnorm : source.norm = m := by
    have hmerges := hintact.merges_plain hlength
    rw [← hplain] at hmerges
    exact hmerges.unique (decode_eq_ok_iff.mp h).2
  have hcovers := hintact.covers_plain hlength
  rw [← hplain] at hcovers
  have hshorter := length_fields_cut_lt hcovers h hcut hmissing
  have hle := fieldCount_le_of_makes (decode_eq_ok_iff.mp hcut).2.covers_and_makes.2
  rw [fieldCount_empty] at hle
  rw [← hnorm, fieldCount_norm]
  omega

/--
Of an input that decodes, every piece from the front decodes as well, or is refused because bytes
are missing or the end of a group.  If the input is an encoding and the piece is not all of it, the
piece decodes to another message, which has fewer fields.
-/
theorem truncation_detected {limits : DecodeLimits} {input : Bytes} {m : Message s}
    (h : decode s limits input = .ok m) {cut : Bytes} (hcut : cut <+: input) :
    ((∃ m', decode s limits cut = .ok m') ∨
      ∃ error, decode s limits cut = .error error ∧ error.category = .truncated ∧
        ((∃ context, error = .truncated context) ∨
          ∃ number, error = .unterminatedGroup number)) ∧
    ∀ (source : Message s) (maxDepth : Nat), source.Genuine →
      encode maxDepth source = .ok input → cut ≠ input →
      ∀ m', decode s limits cut = .ok m' → m' ≠ m ∧ m'.fieldCount < m.fieldCount := by
  obtain ⟨missing, rfl⟩ := hcut
  constructor
  · rcases decode_cut h with hok | ⟨error, herror, hcategory⟩
    · exact .inl hok
    · exact .inr ⟨error, herror, hcategory, DecodeError.category_eq_truncated_iff.mp hcategory⟩
  · intro source maxDepth hgenuine hencode hne m' hdecode
    have hmissing : missing ≠ [] := by
      rintro rfl
      exact hne (List.append_nil cut).symm
    have hfewer := fieldCount_cut_lt hgenuine hencode hmissing h hdecode
    refine ⟨?_, hfewer⟩
    rintro rfl
    exact Nat.lt_irrefl _ hfewer

/--
Behind its aggregate, the encoding of this message goes on with a length, which is cut off; a cut
inside the group of the aggregate leaves too few bytes for the length in front of it.
-/
theorem truncation_detected_grouped_aggregate :
    let whole := groupedAggregate.plain
    let front : Message .value :=
      Value.aggregate [.leaf none [.varint 9 300], .leaf (some (.integer (-1))) []]
        [⟨7, .startGroup, [0x3b, 0x3c, 0x3c]⟩] []
    decode .value ⟨3, 28⟩ whole = .ok groupedAggregate.norm ∧
    decode .value ⟨3, 28⟩ (whole.take 24) = .ok front ∧
    front ≠ groupedAggregate.norm ∧ front.fieldCount < groupedAggregate.norm.fieldCount ∧
    ∃ error, decode .value ⟨3, 28⟩ (whole.take 22) = .error error ∧
      error.category = .truncated ∧
      ((∃ context, error = .truncated context) ∨
        ∃ number, error = .unterminatedGroup number) := by
  intro whole front
  have hencode : encode 2 groupedAggregate = .ok whole :=
    encode_eq_ok_iff.mpr ⟨rfl, by decide +kernel, rfl⟩
  have hdecode : decode .value ⟨3, 28⟩ whole = .ok groupedAggregate.norm := rfl
  have hfront : decode .value ⟨3, 28⟩ (whole.take 24) = .ok front := rfl
  have hlonger := (truncation_detected hdecode (List.take_prefix 24 whole)).2 groupedAggregate 2
    genuine_groupedAggregate hencode (by decide +kernel) front hfront
  refine ⟨hdecode, hfront, hlonger.1, hlonger.2, ?_⟩
  rcases (truncation_detected hdecode (List.take_prefix 22 whole)).1 with ⟨m', hok⟩ | herror
  · have hfails : decode .value ⟨3, 28⟩ (whole.take 22) =
        .error (.truncated "ntt.Composite") := rfl
    rw [hfails] at hok
    cases hok
  · exact herror

end Message

end TestWire
