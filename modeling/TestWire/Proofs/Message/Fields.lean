import TestWire.Message.Merge
import TestWire.Proofs.Wire.Tag

/-! # Fields in a row

A merge that succeeds has followed a list of fields, up to the end of its region or a tag that ends
it early; `Merged.Fields` is such a list with what it makes of the message.
-/

namespace TestWire

/-- The tags that end the fields of a message before the input does. -/
def Tag.Ends (front : Bytes) : Prop :=
  Varint.Spelling Limits.maxVarintBytes front 0 ∨ ∃ number, Tag.Spelling front ⟨number, .endGroup⟩

theorem Tag.Ends.length_pos {front : Bytes} (h : Tag.Ends front) : 0 < front.length := by
  rcases h with hzero | ⟨number, hend⟩
  · exact hzero.length_pos
  · exact hend.length_pos

namespace Merged

variable {μ : Type}

/-- The step takes a payload of its tag off the front of the input, whatever follows it. -/
def Takes (step : Step μ) (form : Tag → μ → Bytes → μ → Prop) : Prop :=
  ∀ tag m input m' rest, step tag m input = ⟨m', .ok rest⟩ ↔
    ∃ payload, input = payload ++ rest ∧ form tag m payload m'

/-- What the fields of a region make of a message, one after the other. -/
inductive Fields (form : Tag → μ → Bytes → μ → Prop) : μ → Bytes → μ → Prop
  | done (m : μ) : Fields form m [] m
  | ended (m : μ) {front rest : Bytes} (hfront : Tag.Ends front) : Fields form m (front ++ rest) m
  | field {tag : Tag} {front payload rest : Bytes} {m m' m'' : μ} (hfront : Tag.Spelling front tag)
      (htag : tag.wireType ≠ .endGroup) (hpayload : form tag m payload m')
      (hrest : Fields form m' rest m'') : Fields form m (front ++ (payload ++ rest)) m''

theorem Fields.mono {form form' : Tag → μ → Bytes → μ → Prop}
    (h : ∀ tag m payload m', form tag m payload m' → form' tag m payload m') {m m' : μ}
    {input : Bytes} (hfields : Fields form m input m') : Fields form' m input m' := by
  induction hfields with
  | done m => exact .done m
  | ended m hfront => exact .ended m hfront
  | field hfront htag hpayload _ ih => exact .field hfront htag (h _ _ _ _ hpayload) ih

theorem Fields.keeps {form : Tag → μ → Bytes → μ → Prop} {kept : μ → Prop}
    (hstep : ∀ {tag m payload m'}, form tag m payload m' → tag.Valid → kept m → kept m') {m m' : μ}
    {input : Bytes} (h : Fields form m input m') (hstart : kept m) : kept m' := by
  induction h with
  | done m => exact hstart
  | ended m _ => exact hstart
  | field hfront _ hpayload _ ih => exact ih (hstep hpayload hfront.valid hstart)

/-- What grows by at most `rate` with each byte of a field, while it is small, does so over all. -/
theorem Fields.measure_le {form : Tag → μ → Bytes → μ → Prop} (measure : μ → Nat)
    {rate bound : Nat}
    (hstep : ∀ {tag front m payload m'}, Tag.Spelling front tag → form tag m payload m' →
      measure m + rate * (front.length + payload.length) < bound →
      measure m' ≤ measure m + rate * (front.length + payload.length)) {m m' : μ} {input : Bytes}
    (h : Fields form m input m') (hlt : measure m + rate * input.length < bound) :
    measure m' ≤ measure m + rate * input.length := by
  induction h with
  | done m => exact Nat.le_add_right _ _
  | ended m _ => exact Nat.le_add_right _ _
  | field hfront _ hpayload _ ih =>
      simp only [List.length_append, ← Nat.add_assoc, Nat.mul_add] at hlt ⊢
      simp only [Nat.mul_add] at hstep
      have hhead := hstep hfront hpayload (by omega)
      have htail := ih (by omega)
      omega

/-! ## One round of the loop -/

def advance (step : Step μ) (m : μ) (input : Bytes) : Merged μ (Option Bytes) :=
  if input.isEmpty then
    ⟨m, .ok none⟩
  else
    match Tag.read input with
    | .error error _ => ⟨m, .error error⟩
    | .ok none _ => ⟨m, .ok none⟩
    | .ok (some tag) rest =>
        if tag.wireType = .endGroup then
          ⟨m, .ok none⟩
        else
          ⟨(step tag m rest).message, (step tag m rest).outcome.map some⟩

theorem fields_succ (step : Step μ) (bound : Nat) (m : μ) (input : Bytes) :
    fields step (bound + 1) m input =
      match advance step m input with
      | ⟨m, .error error⟩ => ⟨m, .error error⟩
      | ⟨m, .ok none⟩ => ⟨m, .ok ()⟩
      | ⟨m, .ok (some rest)⟩ => fields step bound m rest := by
  cases input with
  | nil => rfl
  | cons b input =>
      unfold advance
      rw [fields, if_neg (by simp)]
      cases Tag.read (b :: input) with
      | error error rest => rfl
      | ok tag? rest =>
          cases tag? with
          | none => rfl
          | some tag =>
              dsimp only
              by_cases hend : tag.wireType = .endGroup
              · rw [if_pos hend, if_pos hend]
              · rw [if_neg hend, if_neg hend]
                rcases step tag m rest with ⟨m', outcome⟩
                cases outcome <;> rfl

section

variable {step : Step μ} {m m' : μ} {input : Bytes}

/-- A round that goes on has read a tag, and the step has taken the field behind it. -/
theorem advance_eq_ok_some_iff {rest : Bytes} :
    advance step m input = ⟨m', .ok (some rest)⟩ ↔
      ∃ tag front behind, input = front ++ behind ∧ Tag.Spelling front tag ∧
        tag.wireType ≠ .endGroup ∧ step tag m behind = ⟨m', .ok rest⟩ := by
  refine ⟨fun h => ?_, fun h => ?_⟩
  · unfold advance at h
    split at h
    · cases h
    · split at h
      · cases h
      · cases h
      · next tag behind hread =>
          split at h
          · cases h
          · next hend =>
              obtain ⟨front, rfl, hfront⟩ := (Tag.read_reads _ _ _).mp hread
              refine ⟨tag, front, behind, rfl, hfront, hend, ?_⟩
              rcases hstep : step tag m behind with ⟨m₁, outcome⟩
              rw [hstep] at h
              cases outcome with
              | error error => cases h
              | ok rest' =>
                  cases h
                  rfl
  · obtain ⟨tag, front, behind, rfl, hfront, hend, hstep⟩ := h
    unfold advance
    rw [if_neg (by simp [hfront.isEmpty_append]), hfront.read_append]
    dsimp only
    rw [if_neg hend, hstep]
    rfl

/-- A round that ends the fields leaves the message, at the end of the input or at a tag. -/
theorem advance_eq_ok_none_iff :
    advance step m input = ⟨m', .ok none⟩ ↔
      m' = m ∧ (input = [] ∨ ∃ front rest, input = front ++ rest ∧ Tag.Ends front) := by
  refine ⟨fun h => ?_, fun h => ?_⟩
  · unfold advance at h
    split at h
    · next hempty =>
        cases h
        exact ⟨rfl, .inl (List.isEmpty_iff.mp hempty)⟩
    · split at h
      · cases h
      · next rest hread =>
          cases h
          obtain ⟨front, rfl, hzero⟩ := (Tag.read_reads _ _ _).mp hread
          exact ⟨rfl, .inr ⟨front, rest, rfl, .inl hzero⟩⟩
      · next tag rest hread =>
          split at h
          · next hend =>
              cases h
              obtain ⟨front, rfl, hfront⟩ := (Tag.read_reads _ _ _).mp hread
              rcases tag with ⟨number, wireType⟩
              cases hend
              exact ⟨rfl, .inr ⟨front, rest, rfl, .inr ⟨number, hfront⟩⟩⟩
          · rcases hstep : step tag m rest with ⟨m₁, outcome⟩
            rw [hstep] at h
            cases outcome <;> cases h
  · obtain ⟨rfl, rfl | ⟨front, rest, rfl, hends⟩⟩ := h
    · rfl
    · have hempty : ¬ (front ++ rest).isEmpty := by
        have hpos := hends.length_pos
        rw [List.isEmpty_iff, List.append_eq_nil_iff]
        rintro ⟨rfl, _⟩
        simp at hpos
      unfold advance
      rw [if_neg hempty]
      rcases hends with hzero | ⟨number, hend⟩
      · rw [Tag.read_reads.ok_append (a := none) hzero]
      · rw [hend.read_append]
        rfl

end

/-! ## Merging a region -/

section

variable {step : Step μ} {form : Tag → μ → Bytes → μ → Prop}

theorem Fields.of_fields (h : Takes step form) {bound : Nat} {m m' : μ} {input : Bytes}
    (hbound : input.length < bound) (hfields : fields step bound m input = ⟨m', .ok ()⟩) :
    Fields form m input m' := by
  induction bound generalizing m input with
  | zero => omega
  | succ bound ih =>
      rw [fields_succ] at hfields
      rcases hround : advance step m input with ⟨m₁, error | _ | rest⟩
      · rw [hround] at hfields
        cases hfields
      · rw [hround] at hfields
        cases hfields
        obtain ⟨rfl, rfl | ⟨front, rest, rfl, hends⟩⟩ := advance_eq_ok_none_iff.mp hround
        · exact .done _
        · exact .ended _ hends
      · rw [hround] at hfields
        obtain ⟨tag, front, behind, rfl, hfront, hend, hstep⟩ := advance_eq_ok_some_iff.mp hround
        obtain ⟨payload, rfl, hpayload⟩ := (h _ _ _ _ _).mp hstep
        have hpos := hfront.length_pos
        simp only [List.length_append] at hbound
        exact .field hfront hend hpayload (ih (by omega) hfields)

theorem Fields.fields_eq (h : Takes step form) {bound : Nat} {m m' : μ} {input : Bytes}
    (hfields : Fields form m input m') (hbound : input.length < bound) :
    fields step bound m input = ⟨m', .ok ()⟩ := by
  rcases Nat.exists_eq_add_one.mpr (show 0 < bound by omega) with ⟨bound, rfl⟩
  induction hfields generalizing bound with
  | done m => rfl
  | ended m hfront =>
      rw [fields_succ, advance_eq_ok_none_iff.mpr ⟨rfl, .inr ⟨_, _, rfl, hfront⟩⟩]
  | @field tag front payload rest m m' m'' hfront htag hpayload hrest ih =>
      have hpos := hfront.length_pos
      simp only [List.length_append] at hbound
      have hstep : step tag m (payload ++ rest) = ⟨m', .ok rest⟩ :=
        (h _ _ _ _ _).mpr ⟨payload, rfl, hpayload⟩
      rcases Nat.exists_eq_add_one.mpr (show 0 < bound by omega) with ⟨bound, rfl⟩
      rw [fields_succ, advance_eq_ok_some_iff.mpr ⟨tag, front, _, rfl, hfront, htag, hstep⟩]
      exact ih bound (by omega)

theorem region_eq_ok_iff (h : Takes step form) {m m' : μ} {input : Bytes} :
    region step m input = ⟨m', .ok ()⟩ ↔ Fields form m input m' := by
  constructor
  · exact Fields.of_fields h (Nat.lt_succ_self input.length)
  · intro hfields
    exact hfields.fields_eq h (Nat.lt_succ_self input.length)

end

/-! ## Steps -/

theorem field_eq_ok_iff {α : Type} {read : Reader α} {form : Bytes → α → Prop}
    (h : read.Reads form) {set : μ → α → μ} {m m' : μ} {input rest : Bytes} :
    field read set m input = ⟨m', .ok rest⟩ ↔
      ∃ payload, input = payload ++ rest ∧ ∃ a, form payload a ∧ m' = set m a := by
  unfold field
  constructor
  · intro hfield
    split at hfield
    · next a behind hread =>
        cases hfield
        rcases (h _ _ _).mp hread with ⟨payload, rfl, hform⟩
        exact ⟨payload, rfl, a, hform, rfl⟩
    · cases hfield
  · intro hpayload
    rcases hpayload with ⟨payload, rfl, a, hform, rfl⟩
    rw [h.ok_append hform]

theorem nested_eq_ok_iff {max : Nat} {name : String} {deeper : Option (Region μ)}
    {merges : μ → Bytes → μ → Prop}
    (h : ∀ m body m', (∃ merge ∈ deeper, merge m body = ⟨m', .ok ()⟩) ↔ merges m body m')
    {m m' : μ} {input rest : Bytes} :
    nested max name deeper m input = ⟨m', .ok rest⟩ ↔
      ∃ payload, input = payload ++ rest ∧
        ∃ body, Varint.Prefixed payload body ∧ merges m body m' := by
  unfold nested
  constructor
  · intro hnested
    split at hnested
    · cases hnested
    · next merge =>
        split at hnested
        · cases hnested
        · next body behind hread =>
            rcases (Reader.prefixed_reads _ _ _ _).mp hread with ⟨payload, rfl, hprefixed⟩
            cases hmerge : merge m body with
            | mk inner outcome =>
                rw [hmerge] at hnested
                cases outcome with
                | error error => cases hnested
                | ok =>
                    cases hnested
                    exact ⟨payload, rfl, body, hprefixed, (h _ _ _).mp ⟨merge, rfl, hmerge⟩⟩
  · intro hpayload
    rcases hpayload with ⟨payload, rfl, body, hprefixed, hmerges⟩
    rcases (h _ _ _).mpr hmerges with ⟨merge, hdeeper, hmerge⟩
    cases hdeeper
    simp only [(Reader.prefixed_reads _).ok_append hprefixed, hmerge]
    rfl

end Merged

end TestWire
