import TestWire.Proofs.Message.FieldRow

/-! # Merging one input after another

Nothing but the message passes from one field to the next.  So two inputs merged as one give what
they give one after the other, unless the first one has ended early.
-/

namespace TestWire

namespace Merged

variable {μ : Type} {step : Step μ} {form : Tag → μ → Bytes → μ → Prop}

theorem Takes.length_rest_le (h : Takes step form) {tag : Tag} {m m' : μ} {input rest : Bytes}
    (hstep : step tag m input = ⟨m', .ok rest⟩) : rest.length ≤ input.length := by
  obtain ⟨payload, rfl, _⟩ := (h _ _ _ _ _).mp hstep
  simp

theorem Takes.fields_eq_fields (h : Takes step form) {bound bound' : Nat} {input : Bytes}
    (hbound : input.length < bound) (hbound' : input.length < bound') (m : μ) :
    fields step bound m input = fields step bound' m input := by
  induction bound generalizing bound' input m with
  | zero => omega
  | succ bound ih =>
      obtain ⟨bound', rfl⟩ := Nat.exists_eq_add_one.mpr (show 0 < bound' by omega)
      rw [fields_succ, fields_succ]
      rcases hround : advance step m input with ⟨m', error | _ | rest⟩
      · rfl
      · rfl
      · obtain ⟨tag, front, behind, rfl, hfront, _, hstep⟩ := advance_eq_ok_some_iff.mp hround
        have hpos := hfront.length_pos
        have hle := h.length_rest_le hstep
        simp only [List.length_append] at hbound hbound'
        exact ih (by omega) (by omega) m'

/-- The fields of a row are merged first, and then what is behind them. -/
theorem Makes.region_append (h : Takes step form) {input : Bytes} {row : FieldRow}
    (hspells : FieldRow.Spells input row) {m m' : μ} (hmakes : Makes form m row.fields m')
    (more : Bytes) :
    region step m (input ++ more) = region step m' (row.behind ++ more) := by
  induction hspells generalizing m with
  | nil behind =>
      cases hmakes
      rfl
  | @cons front rest field row hfront hform _ ih =>
      cases hmakes with
      | @cons _ _ _ m₁ _ hfield hrest =>
          have hpos := hfront.length_pos
          obtain ⟨depth, hpayload⟩ := hform
          have hstep : step field.tag m (field.raw ++ (rest ++ more)) = ⟨m₁, .ok (rest ++ more)⟩ :=
            (h _ _ _ _ _).mpr ⟨field.raw, rfl, hfield⟩
          have hround : advance step m (front ++ (field.raw ++ (rest ++ more))) =
              ⟨m₁, .ok (some (rest ++ more))⟩ :=
            advance_eq_ok_some_iff.mpr ⟨_, _, _, rfl, hfront, hpayload.wireType_ne_endGroup, hstep⟩
          have htail : region step m₁ (rest ++ more) = region step m' (row.behind ++ more) :=
            ih hrest
          rw [← htail]
          simp only [List.append_assoc]
          unfold region
          rw [fields_succ, hround]
          apply h.fields_eq_fields
          · simp only [List.length_append]
            omega
          · simp only [List.length_append]
            omega

theorem region_of_terminated (h : Takes step form) {row : FieldRow} (hrow : row.Terminated) (m : μ)
    (more : Bytes) : region step m (row.behind ++ more) = ⟨m, .ok ()⟩ := by
  obtain ⟨front, rest, hbehind, hends⟩ := hrow
  rw [hbehind, List.append_assoc]
  exact (region_eq_ok_iff h).mpr (.ended m hends)

end Merged

namespace Message

variable {s : Schema} {limits : DecodeLimits} {a m : Message s} {x : Bytes}

theorem mergeInput_append {max : Nat} (h : Merges max a x m) (y : Bytes) :
    mergeInput max a (x ++ y) = mergeInput max m ((FieldRow.ofInput x).behind ++ y) := by
  obtain ⟨hcovers, hmakes⟩ := h.covers_and_makes
  rw [mergeInput_eq_region]
  exact hmakes.region_append (mergeField_takes s max max) hcovers.spells y

theorem mergeInput_of_terminated (max : Nat) {row : FieldRow} (h : row.Terminated) (m : Message s)
    (more : Bytes) : mergeInput max m (row.behind ++ more) = ⟨m, .ok ()⟩ := by
  rw [mergeInput_eq_region]
  exact Merged.region_of_terminated (mergeField_takes s max max) h m more

theorem merge_eq_mergeInput {input : Bytes} (h : input.length ≤ limits.maxSize) (m : Message s) :
    merge limits m input = mergeInput limits.maxDepth m input := by
  unfold merge
  rw [if_neg (Nat.not_lt.mpr h)]

/--
What was merged has been read up to its end, or up to a tag that ended it.  Up to its end, merging
it with any input behind it is merging that input next: the same outcome, and the same message even
when it fails.  Ended by a tag, it is merged as before whatever stands behind it.
-/
theorem merge_append (h : merge limits a x = ⟨m, .ok ()⟩) :
    (FieldRow.ofInput x).Covers x ∧
    ((FieldRow.ofInput x).behind = [] → ∀ y : Bytes, x.length + y.length ≤ limits.maxSize →
      merge limits a (x ++ y) = merge limits m y) ∧
    ((FieldRow.ofInput x).Terminated → ∀ y : Bytes, x.length + y.length ≤ limits.maxSize →
      merge limits a (x ++ y) = ⟨m, .ok ()⟩) := by
  obtain ⟨_, hmerges⟩ := merge_ok_iff.mp h
  refine ⟨hmerges.covers_and_makes.1, ?_, ?_⟩
  · intro hbehind y hsize
    have happend := mergeInput_append hmerges y
    rw [hbehind, List.nil_append] at happend
    rw [merge_eq_mergeInput (by simpa using hsize), merge_eq_mergeInput (by omega)]
    exact happend
  · intro hterminated y hsize
    rw [merge_eq_mergeInput (by simpa using hsize), mergeInput_append hmerges y]
    exact mergeInput_of_terminated limits.maxDepth hterminated m y

/--
The second aggregate fails behind its first element, which stays beside that of the first.  Behind
the end of a group, a byte that begins no field does no harm.
-/
theorem merge_append_torn :
    merge ⟨2, 10⟩ (empty .value) ([0x42, 2, 0x0a, 0] ++ [0x42, 4, 0x0a, 0, 0x0a, 5]) =
        merge ⟨2, 10⟩ (s := .value) (Value.aggregate [.unset] [] []) [0x42, 4, 0x0a, 0, 0x0a, 5] ∧
      merge ⟨2, 10⟩ (empty .value) ([0x42, 2, 0x0a, 0] ++ [0x42, 4, 0x0a, 0, 0x0a, 5]) =
        ⟨Value.aggregate [.unset, .unset] [] [], .error (.truncated "ntt.Value")⟩ ∧
      merge ⟨2, 10⟩ (empty .value) ([0x30, 1, 0x84, 0] ++ [0xff]) =
        ⟨Value.leaf (some (.integer 1)) [], .ok ()⟩ := by
  have hwhole : merge ⟨2, 10⟩ (empty .value) [0x42, 2, 0x0a, 0] =
      ⟨Value.aggregate [.unset] [] [], .ok ()⟩ := rfl
  have hended : merge ⟨2, 10⟩ (empty .value) [0x30, 1, 0x84, 0] =
      ⟨Value.leaf (some (.integer 1)) [], .ok ()⟩ := rfl
  have hbehind : (FieldRow.ofInput [0x42, 2, 0x0a, 0]).behind = [] := rfl
  have hends : Tag.Ends [0x84, 0] := by
    have hlast : Varint.Spelling 9 [0] (0 : UInt8).toNat := .last (by decide) (by decide)
    have hspelling : Varint.Spelling 10 [0x84, 0]
        ((0x84 : UInt8).toNat % 128 + 128 * (0 : UInt8).toNat) := .more (by decide) hlast
    exact .inr ⟨0, hspelling, by decide⟩
  have hterminated : (FieldRow.ofInput [0x30, 1, 0x84, 0]).Terminated :=
    ⟨[0x84, 0], [], rfl, hends⟩
  have hjoined := (merge_append hwhole).2.1 hbehind [0x42, 4, 0x0a, 0, 0x0a, 5] (by decide)
  refine ⟨hjoined, ?_, (merge_append hended).2.2 hterminated [0xff] (by decide)⟩
  rw [hjoined]
  rfl

end Message

end TestWire
