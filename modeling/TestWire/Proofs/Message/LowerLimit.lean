import TestWire.Proofs.Message.Concatenation
import TestWire.Proofs.Message.Walk
import TestWire.Proofs.Wire.LowerLimit

/-! # Lower depth limits

Merging within fewer levels goes through the same fields with the same outcomes, up to the first
place where its levels run out, and to get there takes a byte for each of them and one more.
-/

namespace TestWire

theorem Visit.violation?_lower {lower limit : Nat} (hle : lower ≤ limit) (visit : Visit) :
    visit.violation? lower = some (.depthExceeded lower) ∨
      visit.violation? lower = visit.violation? limit ∧
        ∀ n, visit.violation? lower ≠ some (.depthExceeded n) := by
  cases visit with
  | enter level s =>
      by_cases hlevel : lower < level
      · exact .inl (violation?_enter_of_lt hlevel s)
      · rw [violation?_enter_of_le (by omega), violation?_enter_of_le (by omega)]
        exact .inr (by simp)
  | content bytes => exact .inr (by simp [violation?])
  | field level s field =>
      refine .inr ⟨rfl, fun n => ?_⟩
      show s.refusal? field ≠ _
      unfold Schema.refusal?
      split
      · simp
      · split <;> simp

/-! ## Merging fields -/

namespace Merged

variable {μ ν α β : Type}

/-- With `left` levels a merge gives the same as with more, or they run out on an input that has
room for them. -/
inductive Tightened (max left size : Nat) : Merged μ α → Merged μ α → Prop
  | exceeded {tight loose : Merged μ α} (houtcome : tight.outcome = .error (.depthExceeded max))
      (hleft : left ≤ size) : Tightened max left size tight loose
  | same {merged : Merged μ α} (houtcome : ∀ n, merged.outcome ≠ .error (.depthExceeded n)) :
      Tightened max left size merged merged

namespace Tightened

variable {max left size : Nat} {tight loose : Merged μ α}

theorem ok (m : μ) (a : α) : Tightened max left size ⟨m, .ok a⟩ ⟨m, .ok a⟩ :=
  .same (by simp)

theorem failed (m : μ) {error : DecodeError} (herror : ∀ n, error ≠ .depthExceeded n) :
    Tightened max left size (⟨m, .error error⟩ : Merged μ α) ⟨m, .error error⟩ := by
  apply Tightened.same
  intro n hn
  exact herror n (Except.error.inj hn)

theorem mono {left' size' : Nat} (h : Tightened max left size tight loose)
    (hle : left' + size ≤ left + size') : Tightened max left' size' tight loose := by
  cases h with
  | exceeded houtcome hleft => exact .exceeded houtcome (by omega)
  | same houtcome => exact .same houtcome

theorem congr {tight' loose' : Merged ν β} (h : Tightened max left size tight loose) (f : α → β)
    (houtcome : tight'.outcome = tight.outcome.map f) (hsame : tight = loose → tight' = loose') :
    Tightened max left size tight' loose' := by
  cases h with
  | exceeded hexceeded hleft => exact .exceeded (by rw [houtcome, hexceeded]; rfl) hleft
  | same hother =>
      rw [← hsame rfl]
      apply Tightened.same
      intro n hn
      rw [houtcome] at hn
      cases hresult : tight.outcome with
      | ok a =>
          rw [hresult] at hn
          cases hn
      | error error =>
          rw [hresult] at hn
          cases hn
          exact hother n hresult

end Tightened

section

variable {max max' left : Nat}

theorem field_tightened {read read' : Reader α} (h : Reader.Tightens max left read read')
    (set : μ → α → μ) (m : μ) (input : Bytes) :
    Tightened max left input.length (field read set m input) (field read' set m input) := by
  have hread := h input
  unfold field
  generalize read input = result, read' input = result' at hread ⊢
  cases hread with
  | exceeded hleft => exact .exceeded rfl hleft
  | same hsettled =>
      cases hsettled with
      | ok _ => exact .ok _ _
      | failed herror => exact .failed m herror

theorem nested_tightened {merge merge' : Region μ}
    (h : ∀ m body, Tightened max left body.length (merge m body) (merge' m body)) (name : String)
    (m : μ) (input : Bytes) :
    Tightened max left input.length (nested max name (some merge) m input)
      (nested max' name (some merge') m input) := by
  have hread := Reader.prefixed_depthless name input
  unfold nested
  dsimp only
  cases hbody : Reader.prefixed name input with
  | error error rest =>
      rw [hbody] at hread
      cases hread with
      | failed herror => exact .failed m herror
  | ok body rest =>
      obtain ⟨payload, rfl, hprefixed⟩ := (Reader.prefixed_reads _ _ _ _).mp hbody
      have hlength := hprefixed.length_le
      have hmerge : Tightened max left (payload ++ rest).length (merge m body) (merge' m body) := by
        apply (h m body).mono
        rw [List.length_append]
        omega
      apply hmerge.congr (fun _ => rest) rfl
      intro heq
      simp only [heq]

/-! ## Merging a region -/

section

variable {step step' : Step μ}
  (hstep : ∀ tag m input,
    Tightened max left input.length (step tag m input) (step' tag m input))

include hstep

/-- A round takes a byte at least before a level is asked for. -/
theorem advance_tightened (m : μ) (input : Bytes) :
    Tightened max (left + 1) input.length (advance step m input) (advance step' m input) := by
  have hread := Tag.read_depthless input
  unfold advance
  by_cases hempty : input.isEmpty
  · rw [if_pos hempty, if_pos hempty]
    exact .ok m none
  · rw [if_neg hempty, if_neg hempty]
    cases htag : Tag.read input with
    | error error rest =>
        rw [htag] at hread
        cases hread with
        | failed herror => exact .failed m herror
    | ok tag? rest =>
        cases tag? with
        | none => exact .ok m none
        | some tag =>
            dsimp only
            by_cases hend : tag.wireType = .endGroup
            · rw [if_pos hend, if_pos hend]
              exact .ok m none
            · rw [if_neg hend, if_neg hend]
              obtain ⟨front, rfl, hfront⟩ := (Tag.read_reads _ _ _).mp htag
              have hpos := hfront.length_pos
              have hround : Tightened max left rest.length
                  ⟨(step tag m rest).message, (step tag m rest).outcome.map some⟩
                  ⟨(step' tag m rest).message, (step' tag m rest).outcome.map some⟩ := by
                apply (hstep tag m rest).congr some rfl
                intro heq
                rw [heq]
              apply hround.mono
              rw [List.length_append]
              omega

theorem fields_tightened {form : Tag → μ → Bytes → μ → Prop} (htakes : Takes step form)
    (bound : Nat) (m : μ) (input : Bytes) :
    Tightened max (left + 1) input.length (fields step bound m input)
      (fields step' bound m input) := by
  induction bound generalizing m input with
  | zero => exact .ok m ()
  | succ bound ih =>
      have hround := advance_tightened hstep m input
      rw [fields_succ, fields_succ]
      generalize hadvance : advance step m input = tight,
        advance step' m input = loose at hround ⊢
      cases hround with
      | exceeded houtcome hleft =>
          rcases tight with ⟨reached, outcome⟩
          cases houtcome
          exact .exceeded rfl hleft
      | same houtcome =>
          rcases tight with ⟨reached, error | _ | rest⟩
          · apply Tightened.failed
            rintro n rfl
            exact houtcome n rfl
          · exact .ok reached ()
          · obtain ⟨tag, front, behind, rfl, hfront, _, htaken⟩ :=
              advance_eq_ok_some_iff.mp hadvance
            have hpos := hfront.length_pos
            have hle := htakes.length_rest_le htaken
            apply (ih reached rest).mono
            rw [List.length_append]
            omega

theorem region_tightened {form : Tag → μ → Bytes → μ → Prop} (htakes : Takes step form) (m : μ)
    (input : Bytes) :
    Tightened max (left + 1) input.length (region step m input) (region step' m input) :=
  fields_tightened hstep htakes _ m input

end

end

end Merged

/-! ## Merging messages -/

theorem Scalar.reader?_depthless {c : Case} {read : Reader Scalar} (h : reader? c = some read) :
    read.Depthless :=
  reader?_induction (fun f hread => hread.map f) Reader.prefixed_depthless
    Reader.varint_depthless Reader.int32_depthless Reader.text_depthless Reader.fixed64_depthless h

section

variable {max max' left left' : Nat} (hle : left ≤ left')

include hle

theorem Value.mergeField_tightened {deeper deeper' : Option (Merged.Region Composite)}
    (hnested : ∀ c input, Merged.Tightened max left input.length
      (Merged.nested max Schema.composite.name deeper c input)
      (Merged.nested max' Schema.composite.name deeper' c input))
    (tag : Tag) (v : Value) (input : Bytes) :
    Merged.Tightened max left input.length (mergeField max left deeper tag v input)
      (mergeField max' left' deeper' tag v input) := by
  unfold mergeField
  cases hcase : Case.ofTag? tag with
  | none => exact Merged.field_tightened (UnknownField.read_tightens max max' hle tag) _ v input
  | some c =>
      dsimp only
      cases hread : Scalar.reader? c with
      | some read =>
          have htight := (Scalar.reader?_depthless hread).tightens max left
          exact Merged.field_tightened htight _ v input
      | none =>
          apply (hnested (v.composite?.getD {}) input).congr id
          · rw [outcome_mergeAggregate, Except.map_id, id_eq]
          · intro heq
            unfold mergeAggregate
            cases hactive : v.composite? with
            | some active =>
                rw [hactive, Option.getD_some] at heq
                simp only [heq]
            | none =>
                rw [hactive, Option.getD_none] at heq
                simp only [heq]

theorem Composite.mergeField_tightened {deeper deeper' : Option (Merged.Region Value)}
    (hnested : ∀ v input, Merged.Tightened max left input.length
      (Merged.nested max Schema.value.name deeper v input)
      (Merged.nested max' Schema.value.name deeper' v input))
    (tag : Tag) (c : Composite) (input : Bytes) :
    Merged.Tightened max left input.length (mergeField max left deeper tag c input)
      (mergeField max' left' deeper' tag c input) := by
  by_cases htag : tag = elementTag
  · cases htag
    apply (hnested .unset input).congr id
    · rw [outcome_mergeField_element, Except.map_id, id_eq]
    · intro heq
      unfold mergeField
      rw [if_pos rfl, if_pos rfl, heq]
  · unfold mergeField
    rw [if_neg htag, if_neg htag]
    exact Merged.field_tightened (UnknownField.read_tightens max max' hle tag) _ c input

theorem BitString.mergeField_tightened (tag : Tag) (b : BitString) (input : Bytes) :
    Merged.Tightened max left input.length (mergeField max left tag b input)
      (mergeField max' left' tag b input) := by
  unfold mergeField
  by_cases hdata : tag = dataTag
  · rw [if_pos hdata, if_pos hdata]
    exact Merged.field_tightened ((Reader.prefixed_depthless _).tightens max left) _ b input
  · rw [if_neg hdata, if_neg hdata]
    by_cases hnbits : tag = nbitsTag
    · rw [if_pos hnbits, if_pos hnbits]
      exact Merged.field_tightened ((Reader.int32_depthless _).tightens max left) _ b input
    · rw [if_neg hnbits, if_neg hnbits]
      exact Merged.field_tightened (UnknownField.read_tightens max max' hle tag) _ b input

end

namespace Message

variable {s : Schema}

theorem mergeField_tightened (max max' : Nat) {left left' : Nat} (hle : left ≤ left') (tag : Tag)
    (m : Message s) (input : Bytes) :
    Merged.Tightened max left input.length (mergeField max left tag m input)
      (mergeField max' left' tag m input) := by
  induction left generalizing s left' tag m input with
  | zero =>
      cases s with
      | value =>
          apply Value.mergeField_tightened hle
          intro c input
          exact .exceeded rfl (Nat.zero_le _)
      | composite =>
          show Merged.Tightened max 0 input.length (Composite.mergeField max 0 none tag m input)
            (Composite.mergeField max' left' _ tag m input)
          apply Composite.mergeField_tightened hle
          intro v input
          exact .exceeded rfl (Nat.zero_le _)
      | bits => exact BitString.mergeField_tightened hle tag m input
  | succ left ih =>
      obtain ⟨left', rfl⟩ := Nat.exists_eq_add_one.mpr (show 0 < left' by omega)
      -- Behind its first tag a region one level down asks for `left` levels: one byte more.
      have hregion {s : Schema} (m : Message s) (body : Bytes) :
          Merged.Tightened max (left + 1) body.length
            (Merged.region (mergeField max left) m body)
            (Merged.region (mergeField max' left') m body) :=
        Merged.region_tightened (ih (Nat.le_of_succ_le_succ hle)) (mergeField_takes s max left) m
          body
      cases s with
      | value =>
          apply Value.mergeField_tightened hle
          apply Merged.nested_tightened
          intro c body
          rw [merge_composite_eq_region, merge_composite_eq_region]
          exact hregion (s := .composite) c body
      | composite =>
          apply Composite.mergeField_tightened hle
          apply Merged.nested_tightened
          intro v body
          rw [merge_value_eq_region, merge_value_eq_region]
          exact hregion (s := .value) v body
      | bits => exact BitString.mergeField_tightened hle tag m input

/-- To run out of its levels a merge takes a byte for each, and one more. -/
theorem merge_tightened {lower limit : Nat} (hle : lower ≤ limit) (maxSize : Nat) (m : Message s)
    (input : Bytes) :
    Merged.Tightened lower (lower + 1) input.length (merge ⟨lower, maxSize⟩ m input)
      (merge ⟨limit, maxSize⟩ m input) := by
  unfold merge
  by_cases hlarge : maxSize < input.length
  · rw [if_pos hlarge, if_pos hlarge]
    exact .same (by simp)
  · rw [if_neg hlarge, if_neg hlarge]
    rw [mergeInput_eq_region, mergeInput_eq_region]
    exact Merged.region_tightened (mergeField_tightened lower limit hle)
      (mergeField_takes s lower lower) m input

/-! ## Both directions -/

theorem decode_tightened {lower limit : Nat} (hle : lower ≤ limit) (maxSize : Nat) (s : Schema)
    (input : Bytes) :
    decode s ⟨lower, maxSize⟩ input = .error (.depthExceeded lower) ∧ lower < input.length ∨
      decode s ⟨lower, maxSize⟩ input = decode s ⟨limit, maxSize⟩ input ∧
        ∀ n, decode s ⟨lower, maxSize⟩ input ≠ .error (.depthExceeded n) := by
  have hmerge := merge_tightened hle maxSize (empty s) input
  unfold decode
  generalize merge ⟨lower, maxSize⟩ (empty s) input = tight,
    merge ⟨limit, maxSize⟩ (empty s) input = loose at hmerge ⊢
  cases hmerge with
  | exceeded houtcome hleft =>
      refine .inl ⟨?_, hleft⟩
      simp only [houtcome]
      rfl
  | same houtcome =>
      refine .inr ⟨rfl, ?_⟩
      intro n hn
      rcases tight with ⟨m, error | _⟩
      · cases hn
        exact houtcome n rfl
      · cases hn

theorem firstViolation?_lower {lower limit : Nat} (hle : lower ≤ limit) (m : Message s) :
    m.firstViolation? lower = some (.depthExceeded lower) ∨
      m.firstViolation? lower = m.firstViolation? limit ∧
        ∀ n, m.firstViolation? lower ≠ some (.depthExceeded n) := by
  unfold firstViolation?
  generalize m.walk = visits
  induction visits with
  | nil => exact .inr (by simp)
  | cons visit visits ih =>
      rw [List.findSome?_cons, List.findSome?_cons]
      rcases visit.violation?_lower hle with hexceeded | ⟨hsame, hother⟩
      · exact .inl (by rw [hexceeded])
      · rw [← hsame]
        cases hvisit : visit.violation? lower with
        | none => exact ih
        | some error =>
            rw [hvisit] at hother
            exact .inr ⟨rfl, hother⟩

theorem encode_lower {lower limit : Nat} (hle : lower ≤ limit) (m : Message s) :
    encode lower m = .error (.depthExceeded lower) ∨
      encode lower m = encode limit m ∧ ∀ n, encode limit m ≠ .error (.depthExceeded n) := by
  rw [encode_eq_elim, encode_eq_elim]
  rcases m.firstViolation?_lower hle with hexceeded | ⟨hsame, hother⟩
  · exact .inl (by rw [hexceeded]; rfl)
  · refine .inr ⟨by rw [hsame], fun n hn => ?_⟩
    rw [hsame] at hother
    cases hfirst : m.firstViolation? limit with
    | some error =>
        rw [hfirst] at hn
        cases hn
        exact hother n hfirst
    | none =>
        rw [hfirst, Option.elim_none] at hn
        split at hn <;> cases hn

/--
Lowering the limit on depth turns what a decoder or an encoder gives into the failure that the
limit is exceeded, or leaves it as it is.  Bytes decode within as many levels as there are bytes,
as far as their nesting goes.
-/
theorem lower_limit_only_exceeds {lower limit : Nat} (hle : lower ≤ limit) (s : Schema)
    (maxSize : Nat) (input : Bytes) (m : Message s) :
    (decode s ⟨lower, maxSize⟩ input = .error (.depthExceeded lower) ∨
      decode s ⟨lower, maxSize⟩ input = decode s ⟨limit, maxSize⟩ input ∧
        ∀ n, decode s ⟨limit, maxSize⟩ input ≠ .error (.depthExceeded n)) ∧
    (input.length ≤ limit →
      ∀ n, decode s ⟨limit, maxSize⟩ input ≠ .error (.depthExceeded n)) ∧
    (encode lower m = .error (.depthExceeded lower) ∨
      encode lower m = encode limit m ∧ ∀ n, encode limit m ≠ .error (.depthExceeded n)) := by
  refine ⟨?_, ?_, encode_lower hle m⟩
  · rcases decode_tightened hle maxSize s input with ⟨hexceeded, _⟩ | ⟨hsame, hother⟩
    · exact .inl hexceeded
    · rw [← hsame]
      exact .inr ⟨rfl, hother⟩
  · intro hlength n
    rcases decode_tightened (Nat.le_refl limit) maxSize s input with ⟨_, hshort⟩ | ⟨_, hother⟩
    · omega
    · exact hother n

/-- Five groups are open when the input ends, and under four levels the fifth one is too many. -/
theorem lower_limit_only_exceeds_groups :
    decode .value ⟨4, 10⟩ [0x4b, 0x4b, 0x4b, 0x4b, 0x4b] = .error (.depthExceeded 4) ∧
    decode .value ⟨5, 10⟩ [0x4b, 0x4b, 0x4b, 0x4b, 0x4b] = .error (.unterminatedGroup 9) ∧
    (∀ n, decode .value ⟨5, 10⟩ [0x4b, 0x4b, 0x4b, 0x4b, 0x4b] ≠ .error (.depthExceeded n)) ∧
    encode 4 siblings = .error (.depthExceeded 4) ∧
    encode 5 siblings =
      .ok [0x42, 16, 0x0a, 6, 0x42, 4, 0x0a, 2, 0x30, 1, 0x0a, 6, 0x42, 4, 0x0a, 2, 0x42, 0] := by
  have hlowered := lower_limit_only_exceeds (show 4 ≤ 5 by decide) .value 10
    [0x4b, 0x4b, 0x4b, 0x4b, 0x4b] siblings
  have hloose : encode 5 siblings =
      .ok [0x42, 16, 0x0a, 6, 0x42, 4, 0x0a, 2, 0x30, 1, 0x0a, 6, 0x42, 4, 0x0a, 2, 0x42, 0] :=
    encode_eq_ok_iff.mpr ⟨rfl, by decide +kernel, by decide +kernel⟩
  have htight : encode 4 siblings ≠ encode 5 siblings := by
    rw [hloose, encode_eq, encodedSize_eq]
    exact nofun
  refine ⟨rfl, rfl, hlowered.2.1 (by decide), ?_, hloose⟩
  rcases hlowered.2.2 with hexceeded | ⟨hsame, _⟩
  · exact hexceeded
  · exact (htight hsame).elim

end Message

end TestWire
