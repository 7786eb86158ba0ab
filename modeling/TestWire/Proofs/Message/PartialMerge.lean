import TestWire.Proofs.Message.Chunks

/-! # Merges that fail

What a failing merge leaves is what the fields before the one that fails make of the message, except
that an active aggregate keeps what was merged into it in place.
-/

namespace TestWire

namespace Merged

variable {μ : Type} {step : Step μ} {form : Tag → μ → Bytes → μ → Prop} {m m' : μ}
  {input : Bytes} {error : DecodeError}

/-- A round fails for want of a tag, which leaves the message, or as its step fails. -/
theorem advance_eq_error (h : advance step m input = ⟨m', .error error⟩) :
    m' = m ∨ ∃ tag front behind, input = front ++ behind ∧ Tag.Spelling front tag ∧
      step tag m behind = ⟨m', .error error⟩ := by
  unfold advance at h
  split at h
  · cases h
  · split at h
    · cases h
      exact .inl rfl
    · cases h
    · next tag behind hread =>
        obtain ⟨front, rfl, hfront⟩ := (Tag.read_reads _ _ _).mp hread
        split at h
        · cases h
        · refine .inr ⟨tag, front, behind, rfl, hfront, ?_⟩
          rcases hstep : step tag m behind with ⟨m₁, failure | rest⟩
          · rw [hstep] at h
            cases h
            rfl
          · rw [hstep] at h
            cases h

theorem message_of_advance_eq_error
    (hstep : ∀ {tag m m' input}, step tag m input = ⟨m', .error error⟩ → m' = m)
    (h : advance step m input = ⟨m', .error error⟩) : m' = m := by
  rcases advance_eq_error h with hmessage | ⟨_, _, _, _, _, hfails⟩
  · exact hmessage
  · exact hstep hfails

theorem fields_eq_error (h : Takes step form)
    (hform : ∀ tag m payload m', form tag m payload m' → ∃ depth, Payload.Form tag payload depth)
    {bound : Nat} (hfields : fields step bound m input = ⟨m', .error error⟩) :
    ∃ chunks reached failing, input = Chunk.join chunks ++ failing ∧
      Makes form m (chunks.map Chunk.field) reached ∧
      advance step reached failing = ⟨m', .error error⟩ := by
  induction bound generalizing m input with
  | zero => cases hfields
  | succ bound ih =>
      rw [fields_succ] at hfields
      rcases hround : advance step m input with ⟨m₁, failure | _ | rest⟩
      · rw [hround] at hfields
        cases hfields
        exact ⟨[], m, input, rfl, .nil m, hround⟩
      · rw [hround] at hfields
        cases hfields
      · rw [hround] at hfields
        obtain ⟨tag, front, behind, rfl, hfront, _, hstep⟩ := advance_eq_ok_some_iff.mp hround
        obtain ⟨payload, rfl, hpayload⟩ := (h _ _ _ _ _).mp hstep
        obtain ⟨chunks, reached, failing, rfl, hmakes, hfails⟩ := ih hfields
        let chunk : Chunk :=
          ⟨front, ⟨tag.number, tag.wireType, payload⟩, hfront, hform _ _ _ _ hpayload⟩
        have hfirst : form chunk.field.tag m chunk.field.raw m₁ := hpayload
        refine ⟨chunk :: chunks, reached, failing, ?_, .cons hfirst hmakes, hfails⟩
        simp [chunk, Chunk.bytes]

theorem region_of_advance_eq_error (h : advance step m input = ⟨m', .error error⟩) :
    region step m input = ⟨m', .error error⟩ := by
  unfold region
  rw [fields_succ, h]

/-- What is read before it is set is not set when reading fails. -/
theorem message_of_field_eq_error {α : Type} {read : Reader α} {set : μ → α → μ}
    (h : field read set m input = ⟨m', .error error⟩) : m' = m := by
  unfold field at h
  split at h
  · cases h
  · cases h
    rfl

/-- A nested message changes only when its region is there and a level is left for it. -/
theorem nested_eq_error {max : Nat} {name : String} {deeper : Option (Region μ)}
    (h : nested max name deeper m input = ⟨m', .error error⟩) :
    m' = m ∨ deeper.isSome ∧
      ∃ payload body rest, input = payload ++ rest ∧ Varint.Prefixed payload body := by
  unfold nested at h
  split at h
  · cases h
    exact .inl rfl
  · split at h
    · cases h
      exact .inl rfl
    · next body rest hread =>
        obtain ⟨payload, rfl, hprefixed⟩ := (Reader.prefixed_reads _ _ _ _).mp hread
        exact .inr ⟨rfl, payload, body, rest, rfl, hprefixed⟩

end Merged

/-! ## Where a merge fails -/

namespace Message

variable {s : Schema}

/-- The fields before `failing` are merged, and the field that is next does not decode. -/
structure StopsAt (limits : DecodeLimits) (a : Message s) (input : Bytes) (reached : Message s)
    (failing : Bytes) : Prop where
  merged : ∃ chunks, input = Chunk.join chunks ++ failing ∧
    merge limits a (Chunk.join chunks) = ⟨reached, .ok ()⟩
  fails : ∀ m, merge limits reached failing ≠ ⟨m, .ok ()⟩
  first : ∀ chunk rest, failing = Chunk.bytes chunk ++ rest →
    ∀ m, decode s limits chunk.bytes ≠ .ok m

theorem exists_stopsAt {max left size : Nat} {a m : Message s} {input : Bytes}
    {error : DecodeError} (hsize : input.length ≤ size)
    (h : Merged.region (mergeField max left) a input = ⟨m, .error error⟩) :
    ∃ reached failing, StopsAt ⟨left, size⟩ a input reached failing ∧
      Merged.advance (mergeField max left) reached failing = ⟨m, .error error⟩ := by
  have htakes := mergeField_takes s max left
  obtain ⟨chunks, reached, failing, rfl, hmakes, hround⟩ :=
    Merged.fields_eq_error htakes (fun _ _ _ _ hform => hform.payload_form) h
  rw [List.length_append] at hsize
  refine ⟨reached, failing, ⟨⟨chunks, rfl, ?_⟩, ?_, ?_⟩, hround⟩
  · apply merge_ok_iff.mpr
    exact ⟨by dsimp only; omega, merges_join_iff.mpr hmakes⟩
  · intro m' hmerge
    have hfields := merges_iff_fields.mp (merge_ok_iff.mp hmerge).2
    have hregion := (Merged.region_eq_ok_iff htakes).mpr hfields
    rw [Merged.region_of_advance_eq_error hround] at hregion
    cases hregion
  · -- A field that decodes on its own is taken here too, and then the round does not fail.
    rintro chunk rest rfl m' hdecode
    obtain ⟨reached', hfield⟩ := (decode_bytes_eq_ok_iff.mp hdecode).2.transfer reached
    have hgoes : Merged.advance (mergeField max left) reached (chunk.bytes ++ rest) =
        ⟨reached', .ok (some rest)⟩ := by
      rw [Chunk.bytes, List.append_assoc]
      exact Merged.advance_eq_ok_some_iff.mpr ⟨_, _, _, rfl, chunk.spelled,
        chunk.wireType_ne_endGroup, (htakes _ _ _ _ _).mpr ⟨_, rfl, hfield⟩⟩
    rw [hround] at hgoes
    cases hgoes

end Message

/-! ## What a failing field leaves -/

theorem Composite.mergeField_eq_error {max left : Nat} {deeper : Option (Merged.Region Value)}
    {tag : Tag} {c c' : Composite} {input : Bytes} {error : DecodeError}
    (h : mergeField max left deeper tag c input = ⟨c', .error error⟩) : c' = c := by
  unfold mergeField at h
  split at h
  · split at h
    · cases h
    · cases h
      rfl
  · exact Merged.message_of_field_eq_error h

theorem BitString.mergeField_eq_error {max left : Nat} {tag : Tag} {b b' : BitString}
    {input : Bytes} {error : DecodeError}
    (h : mergeField max left tag b input = ⟨b', .error error⟩) : b' = b := by
  unfold mergeField at h
  split at h
  · exact Merged.message_of_field_eq_error h
  · split at h
    · exact Merged.message_of_field_eq_error h
    · exact Merged.message_of_field_eq_error h

namespace Value

/-- A whole aggregate field is next, a level is left for it, and an aggregate is active. -/
def Reenters (maxDepth : Nat) (v : Value) (input : Bytes) (active : Composite) (body : Bytes) :
    Prop :=
  v.composite? = some active ∧ 0 < maxDepth ∧ ∃ front payload rest,
    input = front ++ (payload ++ rest) ∧ Tag.Spelling front Case.aggregate.tag ∧
      Varint.Prefixed payload body

theorem Reenters.length_le {maxDepth : Nat} {v : Value} {input body : Bytes} {active : Composite}
    (h : v.Reenters maxDepth input active body) : body.length ≤ input.length := by
  obtain ⟨_, _, front, payload, rest, rfl, _, hprefixed⟩ := h
  have hle := hprefixed.length_le
  simp only [List.length_append]
  omega

theorem setComposite_of_composite? {v : Value} {c : Composite} (h : v.composite? = some c) :
    v.setComposite c = v := by
  cases v with
  | leaf content unknown => cases h
  | aggregate values inner unknown =>
      cases h
      rfl

/-- Of the fields of a value, only one that is merged into an active aggregate can leave a trace. -/
theorem mergeField_eq_error {max left : Nat} {deeper : Option (Merged.Region Composite)} {tag : Tag}
    {v v' : Value} {input : Bytes} {error : DecodeError}
    (h : mergeField max left deeper tag v input = ⟨v', .error error⟩) :
    v' = v ∨ tag = Case.aggregate.tag ∧ deeper.isSome ∧ ∃ active, v.composite? = some active ∧
      ∃ payload body rest, input = payload ++ rest ∧ Varint.Prefixed payload body := by
  unfold mergeField at h
  split at h
  · exact .inl (Merged.message_of_field_eq_error h)
  · next c hcase =>
      obtain rfl := Case.ofTag?_eq_some_iff.mp hcase
      split at h
      · exact .inl (Merged.message_of_field_eq_error h)
      · next hread =>
          obtain rfl := Scalar.reader?_eq_none_iff.mp hread
          unfold mergeAggregate at h
          cases hactive : v.composite? with
          | none =>
              simp only [hactive] at h
              split at h
              · cases h
              · cases h
                exact .inl rfl
          | some active =>
              simp only [hactive] at h
              rcases hnested : Merged.nested max Schema.composite.name deeper active input with
                ⟨c, failure | rest⟩
              · rw [hnested] at h
                cases h
                rcases Merged.nested_eq_error hnested with rfl | hregion
                · exact .inl (setComposite_of_composite? hactive)
                · exact .inr ⟨rfl, hregion.1, active, rfl, hregion.2⟩
              · rw [hnested] at h
                cases h

/-- An aggregate that is merged in place leaves what its region makes of the active one. -/
theorem advance_of_reenters (max : Nat) {deeper : Nat} {v : Value} {input body : Bytes}
    {active : Composite} (h : v.Reenters (deeper + 1) input active body) :
    ∃ rest, Merged.advance (mergeField max (deeper + 1) (some (Composite.merge max deeper))) v
        input =
      ⟨v.setComposite (Composite.merge max deeper active body).message,
        (Composite.merge max deeper active body).outcome.map fun _ => some rest⟩ := by
  obtain ⟨hactive, _, front, payload, rest, rfl, hfront, hprefixed⟩ := h
  have hnested : Merged.nested max Schema.composite.name (some (Composite.merge max deeper)) active
      (payload ++ rest) =
        ⟨(Composite.merge max deeper active body).message,
          (Composite.merge max deeper active body).outcome.map fun _ => rest⟩ := by
    unfold Merged.nested
    simp only [(Reader.prefixed_reads _).ok_append hprefixed]
  have hread : Scalar.reader? .aggregate = none := rfl
  refine ⟨rest, ?_⟩
  unfold Merged.advance
  rw [if_neg (by simp [hfront.isEmpty_append]), hfront.read_append]
  dsimp only
  rw [if_neg (by decide)]
  unfold mergeField mergeAggregate
  simp only [Case.ofTag?_tag, hread, hactive, hnested]
  cases (Composite.merge max deeper active body).outcome <;> rfl

end Value

namespace Message

variable {s : Schema}

/-- An active aggregate has absorbed the fields of its region before the one that fails there; any
other field leaves the message as it was. -/
def LeftBy (limits : DecodeLimits) : {s : Schema} → Message s → Bytes → Message s → Prop
  | .value, (v : Value), failing, (left : Value) =>
      (∀ active body, v.Reenters limits.maxDepth failing active body →
        ∃ absorbed behind,
          StopsAt (s := .composite) ⟨limits.maxDepth - 1, limits.maxSize⟩ active body absorbed
            behind ∧ left = v.setComposite absorbed) ∧
      ((∀ active body, ¬ v.Reenters limits.maxDepth failing active body) → left = v)
  | .composite, c, _, left => left = c
  | .bits, b, _, left => left = b

/-- The unknown fields of a message are still in front, and so are the values of a composite. -/
def Extends : {s : Schema} → Message s → Message s → Prop
  | .value, (v : Value), (v' : Value) => v.unknown <+: v'.unknown
  | .composite, (c : Composite), (c' : Composite) =>
      c.values <+: c'.values ∧ c.unknown <+: c'.unknown
  | .bits, (b : BitString), (b' : BitString) => b.unknown <+: b'.unknown

theorem Merges.extends {left : Nat} {a m : Message s} {input : Bytes}
    (h : Merges left a input m) : a.Extends m := by
  have hunknown : a.unknown <+: m.unknown :=
    ⟨_, (unknown_of_makes h.covers_and_makes.2).symm⟩
  cases s with
  | value => exact hunknown
  | composite =>
      obtain ⟨part, hpart, _⟩ := Composite.Merges.exists_part h
      exact ⟨⟨part.values, by rw [hpart]; rfl⟩, hunknown⟩
  | bits => exact hunknown

theorem StopsAt.length_le {limits : DecodeLimits} {a reached : Message s} {input failing : Bytes}
    (h : StopsAt limits a input reached failing) : failing.length ≤ input.length := by
  obtain ⟨_, rfl, _⟩ := h.merged
  simp

theorem StopsAt.extends {limits : DecodeLimits} {a reached : Message s} {input failing : Bytes}
    (h : StopsAt limits a input reached failing) : a.Extends reached := by
  obtain ⟨_, _, hmerge⟩ := h.merged
  exact (merge_ok_iff.mp hmerge).2.extends

/-- A composite that is merged in place has absorbed the fields before the one that fails. -/
theorem exists_absorbed {max deeper size : Nat} {active c : Composite} {body : Bytes}
    {error : DecodeError} (hsize : body.length ≤ size)
    (h : Composite.merge max deeper active body = ⟨c, .error error⟩) :
    ∃ behind, StopsAt (s := .composite) ⟨deeper, size⟩ active body c behind := by
  have hregion : Merged.region (mergeField max deeper (s := .composite)) active body =
      ⟨c, .error error⟩ := by
    cases deeper <;> exact h
  obtain ⟨reached, behind, hstops, hround⟩ := exists_stopsAt hsize hregion
  obtain rfl : c = reached :=
    Merged.message_of_advance_eq_error Composite.mergeField_eq_error hround
  exact ⟨behind, hstops⟩

theorem leftBy_of_advance {limits : DecodeLimits} {reached m : Message s} {failing : Bytes}
    {error : DecodeError} (hsize : failing.length ≤ limits.maxSize)
    (h : Merged.advance (mergeField limits.maxDepth limits.maxDepth) reached failing =
      ⟨m, .error error⟩) : LeftBy limits reached failing m := by
  obtain ⟨maxDepth, maxSize⟩ := limits
  cases s with
  | value =>
      refine ⟨fun active body hreenters => ?_, fun hnone => ?_⟩
      · obtain ⟨deeper, rfl⟩ := Nat.exists_eq_add_one.mpr hreenters.2.1
        have hbody : body.length ≤ maxSize := Nat.le_trans hreenters.length_le hsize
        obtain ⟨rest, hround⟩ := Value.advance_of_reenters (deeper + 1) hreenters
        rcases hmerge : Composite.merge (deeper + 1) deeper active body with
          ⟨absorbed, failure | _⟩
        · obtain ⟨behind, hstops⟩ := exists_absorbed hbody hmerge
          rw [hmerge] at hround
          cases hround.symm.trans h
          exact ⟨absorbed, behind, hstops, rfl⟩
        · rw [hmerge] at hround
          cases hround.symm.trans h
      · rcases Merged.advance_eq_error h with hm | ⟨tag, front, behind, rfl, hfront, hstep⟩
        · exact hm
        · rcases Value.mergeField_eq_error hstep with hm | ⟨rfl, hdeeper, active, hactive, hregion⟩
          · exact hm
          · -- The region is there and an aggregate is active: this is the case left out.
            obtain ⟨payload, body, rest, rfl, hprefixed⟩ := hregion
            have hlevel : 0 < maxDepth := by
              cases maxDepth with
              | zero => cases hdeeper
              | succ deeper => exact Nat.succ_pos deeper
            exact (hnone active body
              ⟨hactive, hlevel, front, payload, rest, rfl, hfront, hprefixed⟩).elim
  | composite => exact Merged.message_of_advance_eq_error Composite.mergeField_eq_error h
  | bits => exact Merged.message_of_advance_eq_error BitString.mergeField_eq_error h

theorem LeftBy.extends {limits : DecodeLimits} {a reached m : Message s} {failing : Bytes}
    (h : LeftBy limits reached failing m) (hreached : a.Extends reached) : a.Extends m := by
  cases s with
  | value =>
      by_cases hreenters : ∃ active body,
          Value.Reenters limits.maxDepth reached failing active body
      · obtain ⟨active, body, hreenters⟩ := hreenters
        obtain ⟨absorbed, _, _, rfl⟩ := h.1 active body hreenters
        exact hreached
      · obtain rfl : m = reached := h.2 (by simpa using hreenters)
        exact hreached
  | composite =>
      obtain rfl : m = reached := h
      exact hreached
  | bits =>
      obtain rfl : m = reached := h
      exact hreached

theorem Extends.refl (a : Message s) : a.Extends a := by
  cases s with
  | value => exact List.prefix_rfl
  | composite => exact ⟨List.prefix_rfl, List.prefix_rfl⟩
  | bits => exact List.prefix_rfl

/--
A merge that fails for the size of its input leaves the message.  Any other has merged the fields
before the one that fails, and this one leaves no trace, unless it is an aggregate that is merged
in place.  Whatever fails, nothing is lost of the unknown fields and of the values of a composite.
-/
theorem merge_failed {limits : DecodeLimits} {a m : Message s} {x : Bytes} {error : DecodeError}
    (h : merge limits a x = ⟨m, .error error⟩) :
    (limits.maxSize < x.length → m = a) ∧
    (x.length ≤ limits.maxSize → ∃ reached failing,
      StopsAt limits a x reached failing ∧ LeftBy limits reached failing m) ∧
    a.Extends m := by
  by_cases hlarge : limits.maxSize < x.length
  · unfold merge at h
    rw [if_pos hlarge] at h
    cases h
    exact ⟨fun _ => rfl, fun hsize => (Nat.not_lt.mpr hsize hlarge).elim, .refl a⟩
  · have hsize := Nat.le_of_not_lt hlarge
    rw [merge_eq_mergeInput hsize, mergeInput_eq_region] at h
    obtain ⟨reached, failing, hstops, hround⟩ := exists_stopsAt hsize h
    have hleft : LeftBy limits reached failing m :=
      leftBy_of_advance (Nat.le_trans hstops.length_le hsize) hround
    exact ⟨fun hlt => (hlarge hlt).elim, fun _ => ⟨reached, failing, hstops, hleft⟩,
      hleft.extends hstops.extends⟩

/--
The second element of the region is torn, behind an unknown field and a complete element, which
stay.  With room for seven bytes only nothing is merged.
-/
theorem merge_failed_torn :
    let a : Message .value := Value.aggregate [.unset] [] []
    let x : Bytes := [0x48, 5, 0x42, 4, 0x0a, 0, 0x0a, 5]
    let left : Message .value := Value.aggregate [.unset, .unset] [] [⟨9, .varint, [5]⟩]
    merge ⟨2, 8⟩ a x = ⟨left, .error (.truncated "ntt.Value")⟩ ∧
    (∃ reached failing, StopsAt ⟨2, 8⟩ a x reached failing ∧ LeftBy ⟨2, 8⟩ reached failing left) ∧
    a.Extends left ∧
    merge ⟨2, 7⟩ a x = ⟨a, .error (.lengthExceedsLimit "message" 8 7)⟩ := by
  intro a x left
  have htorn : merge ⟨2, 8⟩ a x = ⟨left, .error (.truncated "ntt.Value")⟩ := rfl
  have hlarge : merge ⟨2, 7⟩ a x = ⟨a, .error (.lengthExceedsLimit "message" 8 7)⟩ := rfl
  obtain ⟨_, hleft, hextends⟩ := merge_failed htorn
  exact ⟨htorn, hleft (by decide), hextends, hlarge⟩

end Message

end TestWire
