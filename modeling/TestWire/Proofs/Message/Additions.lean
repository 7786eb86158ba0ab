import Mathlib.Data.List.Perm.Subperm
import TestWire.Proofs.Message.Intact

/-! # What a merge adds

However a merge ends, the unknown fields that it leaves are some of those that were there, and
fields that it has read itself.
-/

namespace TestWire

/-- Part of what there was is left, and all that came to it is as it should be. -/
def AddsOnly {α : Type} (holds : α → Prop) (before after : List α) : Prop :=
  ∃ added, (∀ a ∈ added, holds a) ∧ after.Subperm (before ++ added)

namespace AddsOnly

variable {α : Type} {holds : α → Prop} {before middle after before' after' : List α} {a : α}

theorem of_subperm (h : after.Subperm before) : AddsOnly holds before after :=
  ⟨[], by simp, by rwa [List.append_nil]⟩

theorem refl (before : List α) : AddsOnly holds before before :=
  of_subperm (List.Subperm.refl before)

theorem trans (h : AddsOnly holds before middle) (h' : AddsOnly holds middle after) :
    AddsOnly holds before after := by
  rcases h with ⟨added, hadded, hmiddle⟩
  rcases h' with ⟨added', hadded', hafter⟩
  refine ⟨added ++ added', ?_, ?_⟩
  · intro a ha
    rcases List.mem_append.mp ha with hfirst | hsecond
    · exact hadded a hfirst
    · exact hadded' a hsecond
  · rw [← List.append_assoc]
    exact hafter.trans (hmiddle.append (List.Subperm.refl added'))

theorem append (h : AddsOnly holds before after) (h' : AddsOnly holds before' after') :
    AddsOnly holds (before ++ before') (after ++ after') := by
  rcases h with ⟨added, hadded, hafter⟩
  rcases h' with ⟨added', hadded', hafter'⟩
  refine ⟨added ++ added', ?_, (hafter.append hafter').trans (List.Perm.subperm ?_)⟩
  · intro a ha
    rcases List.mem_append.mp ha with hfirst | hsecond
    · exact hadded a hfirst
    · exact hadded' a hsecond
  · simp only [List.append_assoc]
    exact (List.perm_append_comm_assoc added before' added').append_left before

theorem append_singleton (before : List α) (h : holds a) : AddsOnly holds before (before ++ [a]) :=
  ⟨[a], by simpa using h, List.Subperm.refl _⟩

theorem mem (h : AddsOnly holds before after) (ha : a ∈ after) : a ∈ before ∨ holds a := by
  rcases h with ⟨added, hadded, hafter⟩
  rcases List.mem_append.mp (hafter.subset ha) with hbefore | hnew
  · exact .inl hbefore
  · exact .inr (hadded a hnew)

end AddsOnly

/-! ## What each step adds, a merge adds -/

namespace Merged

variable {μ β : Type} (held : μ → List β) {holds : β → Prop} {input : Bytes}

theorem field_addsOnly {m : μ} {α : Type} {read : Reader α} {set : μ → α → μ}
    (hset : ∀ a rest, read input = .ok a rest → AddsOnly holds (held m) (held (set m a))) :
    AddsOnly holds (held m) (held (field read set m input).message) := by
  unfold field
  cases hread : read input with
  | ok a rest => exact hset a rest hread
  | error error rest => exact .refl _

theorem nested_addsOnly (m : μ) {max : Nat} {name : String} {deeper : Option (Region μ)}
    (hdeeper : ∀ merge ∈ deeper, ∀ m body,
      AddsOnly holds (held m) (held (merge m body).message)) :
    AddsOnly holds (held m) (held (nested max name deeper m input).message) := by
  unfold nested
  cases deeper with
  | none => exact .refl _
  | some merge =>
      dsimp only
      cases Reader.prefixed name input with
      | error error rest => exact .refl _
      | ok body rest => exact hdeeper merge rfl m body

variable {step : Step μ}
  (hstep : ∀ {tag}, tag.Valid → ∀ m input,
    AddsOnly holds (held m) (held (step tag m input).message))

include hstep

theorem advance_addsOnly (m : μ) (input : Bytes) :
    AddsOnly holds (held m) (held (advance step m input).message) := by
  unfold advance
  split
  · exact .refl _
  · split
    · exact .refl _
    · exact .refl _
    · next tag rest hread =>
        rcases (Tag.read_reads _ _ _).mp hread with ⟨front, _, hfront⟩
        split
        · exact .refl _
        · exact hstep hfront.valid m rest

theorem region_addsOnly (m : μ) (input : Bytes) :
    AddsOnly holds (held m) (held (region step m input).message) := by
  unfold region
  -- Nothing is added where the bound ends the loop either, so any bound will do.
  generalize input.length + 1 = bound
  induction bound generalizing m input with
  | zero => exact .refl _
  | succ bound ih =>
      have hround := advance_addsOnly held hstep m input
      rw [fields_succ]
      rcases hadvance : advance step m input with ⟨m', error | _ | rest⟩
      · rw [hadvance] at hround
        exact hround
      · rw [hadvance] at hround
        exact hround
      · rw [hadvance] at hround
        exact hround.trans (ih m' rest)

end Merged

/-! ## Unknown fields of what is put together -/

theorem Value.everyUnknown_eq (v : Value) :
    v.everyUnknown = (v.composite?.getD {}).everyUnknown ++ v.unknown.map (Prod.mk .value) := by
  cases v with
  | leaf content unknown => rfl
  | aggregate values inner unknown => rfl

theorem Value.everyUnknown_addUnknown (v : Value) (field : UnknownField) :
    (v.addUnknown field).everyUnknown = v.everyUnknown ++ [(.value, field)] := by
  rw [everyUnknown_eq, everyUnknown_eq v, addUnknown, composite?_withUnknown, unknown_withUnknown]
  simp

theorem Composite.everyUnknown_push (c : Composite) (v : Value) :
    (c.push v).everyUnknown.Perm (c.everyUnknown ++ v.everyUnknown) := by
  simp only [everyUnknown, push, Value.everyUnknownAll_eq_flatMap, List.flatMap_append,
    List.flatMap_cons, List.flatMap_nil, List.append_nil, List.append_assoc]
  exact List.perm_append_comm.append_left _

/-! ## Merging -/

/-- The unknown fields that come to a message are foreign to the messages that keep them. -/
abbrev AddsForeign (before after : List (Schema × UnknownField)) : Prop :=
  AddsOnly (fun held => held.1.Foreign held.2) before after

section

variable {s : Schema} {max left : Nat} {tag : Tag} {input rest : Bytes} {field : UnknownField}

theorem Schema.foreign_of_read (htag : tag.Valid) (hunknown : s.knows tag = false)
    (h : UnknownField.read max left tag input = .ok field rest) : s.Foreign field := by
  rcases (UnknownField.read_reads _ _ _ _ _ _).mp h with ⟨_, _, rfl, _, hform, _⟩
  exact ⟨htag, hunknown, hform⟩

theorem Value.mergeAggregate_addsForeign {deeper : Option (Merged.Region Composite)}
    (hdeeper : ∀ merge ∈ deeper, ∀ c body,
      AddsForeign c.everyUnknown (merge c body).message.everyUnknown) (v : Value) :
    AddsForeign v.everyUnknown (mergeAggregate max deeper v input).message.everyUnknown := by
  have hnested (c : Composite) : AddsForeign c.everyUnknown
      (Merged.nested max Schema.composite.name deeper c input).message.everyUnknown :=
    Merged.nested_addsOnly Composite.everyUnknown c hdeeper
  have hset (c : Composite) (h : AddsForeign (v.composite?.getD {}).everyUnknown c.everyUnknown) :
      AddsForeign v.everyUnknown (v.setComposite c).everyUnknown := by
    rw [everyUnknown_eq v]
    exact h.append (.refl _)
  unfold mergeAggregate
  cases hactive : v.composite? with
  | some active =>
      rw [hactive] at hset
      exact hset _ (hnested active)
  | none =>
      rw [hactive] at hset
      have hnew := hnested {}
      dsimp only
      split
      · next hmerged =>
          rw [hmerged] at hnew
          exact hset _ hnew
      · exact .refl _

theorem Value.mergeField_addsForeign {deeper : Option (Merged.Region Composite)}
    (hdeeper : ∀ merge ∈ deeper, ∀ c body,
      AddsForeign c.everyUnknown (merge c body).message.everyUnknown)
    (htag : tag.Valid) (v : Value) :
    AddsForeign v.everyUnknown (mergeField max left deeper tag v input).message.everyUnknown := by
  unfold mergeField
  split
  · next hcase =>
      apply Merged.field_addsOnly everyUnknown
      intro field rest hread
      have hunknown : Schema.value.knows tag = false := by simp [Schema.knows, hcase]
      rw [everyUnknown_addUnknown]
      exact .append_singleton _ (Schema.foreign_of_read htag hunknown hread)
  · split
    · apply Merged.field_addsOnly everyUnknown
      intro scalar rest _
      rw [everyUnknown_eq v]
      exact .of_subperm (List.sublist_append_right _ _).subperm
    · exact mergeAggregate_addsForeign hdeeper v

theorem Composite.mergeField_addsForeign {deeper : Option (Merged.Region Value)}
    (hdeeper : ∀ merge ∈ deeper, ∀ v body,
      AddsForeign v.everyUnknown (merge v body).message.everyUnknown)
    (htag : tag.Valid) (c : Composite) :
    AddsForeign c.everyUnknown (mergeField max left deeper tag c input).message.everyUnknown := by
  have hnested : AddsForeign [] (Merged.nested max Schema.value.name deeper .unset
      input).message.everyUnknown :=
    Merged.nested_addsOnly Value.everyUnknown .unset hdeeper
  unfold mergeField
  split
  · split
    · next v rest hmerged =>
        rw [hmerged] at hnested
        have hpush : AddsForeign (c.everyUnknown ++ []) (c.everyUnknown ++ v.everyUnknown) :=
          (AddsOnly.refl _).append hnested
        rw [List.append_nil] at hpush
        exact hpush.trans (.of_subperm (everyUnknown_push c v).subperm)
    · exact .refl _
  · next helement =>
      apply Merged.field_addsOnly everyUnknown
      intro field rest hread
      have hunknown : Schema.composite.knows tag = false := by simp [Schema.knows, helement]
      have hadd : (c.addUnknown field).everyUnknown = c.everyUnknown ++ [(.composite, field)] := by
        simp [everyUnknown, addUnknown]
      rw [hadd]
      exact .append_singleton _ (Schema.foreign_of_read htag hunknown hread)

theorem BitString.mergeField_addsForeign (htag : tag.Valid) (b : BitString) :
    AddsForeign (Message.everyUnknown (s := .bits) b)
      (Message.everyUnknown (s := .bits) (mergeField max left tag b input).message) := by
  unfold mergeField
  split
  · exact Merged.field_addsOnly (Message.everyUnknown (s := .bits)) fun _ _ _ => .refl _
  · next hdata =>
      split
      · exact Merged.field_addsOnly (Message.everyUnknown (s := .bits)) fun _ _ _ => .refl _
      · next hnbits =>
          apply Merged.field_addsOnly (Message.everyUnknown (s := .bits))
          intro field rest hread
          have hunknown : Schema.bits.knows tag = false := by simp [Schema.knows, hdata, hnbits]
          have hadd : Message.everyUnknown (s := .bits) (b.addUnknown field) =
              Message.everyUnknown (s := .bits) b ++ [(.bits, field)] := by
            simp [Message.everyUnknown, addUnknown]
          rw [hadd]
          exact .append_singleton _ (Schema.foreign_of_read htag hunknown hread)

end

namespace Message

theorem merge_levels_addsForeign (max left : Nat) :
    (∀ v input, AddsForeign v.everyUnknown (Value.merge max left v input).message.everyUnknown) ∧
    ∀ c input, AddsForeign c.everyUnknown
      (Composite.merge max left c input).message.everyUnknown := by
  -- Values and composites nest in one another, so both go down the levels together.
  induction left with
  | zero =>
      constructor
      · exact Merged.region_addsOnly Value.everyUnknown fun htag v _ =>
          Value.mergeField_addsForeign (by simp) htag v
      · exact Merged.region_addsOnly Composite.everyUnknown fun htag c _ =>
          Composite.mergeField_addsForeign (by simp) htag c
  | succ left ih =>
      constructor
      · exact Merged.region_addsOnly Value.everyUnknown fun htag v _ =>
          Value.mergeField_addsForeign (by simpa using ih.2) htag v
      · exact Merged.region_addsOnly Composite.everyUnknown fun htag c _ =>
          Composite.mergeField_addsForeign (by simpa using ih.1) htag c

/-- A merge adds foreign fields only, whether it succeeds or where it fails. -/
theorem merge_addsForeign {s : Schema} (limits : DecodeLimits) (m : Message s) (input : Bytes) :
    AddsForeign m.everyUnknown (merge limits m input).message.everyUnknown := by
  unfold merge
  split
  · exact .refl _
  · cases s with
    | value => exact (merge_levels_addsForeign limits.maxDepth limits.maxDepth).1 m input
    | composite => exact (merge_levels_addsForeign limits.maxDepth limits.maxDepth).2 m input
    | bits =>
        exact Merged.region_addsOnly (everyUnknown (s := .bits)) (fun htag b _ =>
          BitString.mergeField_addsForeign htag b) m input

end Message

end TestWire
