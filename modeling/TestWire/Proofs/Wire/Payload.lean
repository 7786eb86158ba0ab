import TestWire.Proofs.Wire.Tag
import TestWire.Wire.Payload

/-! # Payloads as they are spelled

`Payload.Form tag raw depth` is the grammar of what follows a tag, with the number of groups that
are open at once.  `Payload.skip` passes over exactly these forms.
-/

namespace TestWire

namespace Payload

/-- The body of a group is its end tag, or a field and then what is itself the body of the group. -/
inductive Form : Tag → Bytes → Nat → Prop
  | varint {number : UInt32} {raw : Bytes} {n : Nat}
      (hraw : Varint.Spelling Limits.maxVarintBytes raw n) : Form ⟨number, .varint⟩ raw 0
  | fixed64 {number : UInt32} {raw : Bytes} (hraw : raw.length = 8) : Form ⟨number, .fixed64⟩ raw 0
  | fixed32 {number : UInt32} {raw : Bytes} (hraw : raw.length = 4) : Form ⟨number, .fixed32⟩ raw 0
  | lengthDelimited {number : UInt32} {raw content : Bytes} (hraw : Varint.Prefixed raw content) :
      Form ⟨number, .lengthDelimited⟩ raw 0
  | groupEnd {number : UInt32} {raw : Bytes} (hraw : Tag.Spelling raw ⟨number, .endGroup⟩) :
      Form ⟨number, .startGroup⟩ raw 1
  | groupField {number : UInt32} {tag : Tag} {front payload rest : Bytes} {depth depth' : Nat}
      (hfront : Tag.Spelling front tag) (hpayload : Form tag payload depth)
      (hrest : Form ⟨number, .startGroup⟩ rest depth') :
      Form ⟨number, .startGroup⟩ (front ++ (payload ++ rest)) (max (depth + 1) depth')

theorem Form.wireType_ne_endGroup {tag : Tag} {raw : Bytes} {depth : Nat}
    (h : Form tag raw depth) : tag.wireType ≠ .endGroup := by
  cases h <;> simp

theorem Form.length_pos {tag : Tag} {raw : Bytes} {depth : Nat} (h : Form tag raw depth) :
    0 < raw.length := by
  cases h with
  | varint hraw => exact hraw.length_pos
  | fixed64 hraw => omega
  | fixed32 hraw => omega
  | lengthDelimited hraw =>
      obtain ⟨length, rfl, hlength⟩ := hraw
      have hpos := hlength.length_pos
      rw [List.length_append]
      omega
  | groupEnd hraw => exact hraw.varint.length_pos
  | groupField hfront _ _ =>
      have hpos := hfront.varint.length_pos
      rw [List.length_append]
      omega

/-- Every level is a group, and every group has at least the bytes of its end tag. -/
theorem Form.depth_le_length {tag : Tag} {raw : Bytes} {depth : Nat} (h : Form tag raw depth) :
    depth ≤ raw.length := by
  induction h with
  | varint _ => exact Nat.zero_le _
  | fixed64 _ => exact Nat.zero_le _
  | fixed32 _ => exact Nat.zero_le _
  | lengthDelimited _ => exact Nat.zero_le _
  | groupEnd hraw => exact hraw.length_pos
  | groupField hfront _ _ ihpayload ihrest =>
      have hpos := hfront.length_pos
      simp only [List.length_append]
      omega

/-! ## Passing over a group -/

section

variable {inner : Tag → Reader Unit} {number : UInt32}

theorem skipFields_succ (bound : Nat) (input : Bytes) :
    skipFields inner number (bound + 1) input =
      if input.isEmpty then
        .error (.unterminatedGroup number) input
      else
        match Tag.read input with
        | .error error rest => .error error rest
        | .ok none rest => .error (.invalidTag 0) rest
        | .ok (some tag) rest =>
            if tag.wireType = .endGroup then
              if tag.number = number then .ok () rest else .error (.invalidTag tag.raw) rest
            else
              match inner tag rest with
              | .error error rest => .error error rest
              | .ok () rest => skipFields inner number bound rest := by
  have hget : (get : Reader Bytes) input = .ok input input := rfl
  simp only [skipFields, Reader.bind_apply, hget]
  split
  · rfl
  · rw [Reader.bind_apply]
    cases Tag.read input with
    | error error rest => rfl
    | ok tag? rest =>
        cases tag? with
        | none => rfl
        | some tag =>
            simp only
            split
            · split <;> rfl
            · rw [Reader.bind_apply]
              cases inner tag rest <;> rfl

variable {left : Nat}
  (hinner : ∀ tag, (inner tag).Reads fun raw _ => ∃ depth, depth ≤ left ∧ Form tag raw depth)

include hinner

theorem form_of_skipFields {bound : Nat} {input rest : Bytes}
    (h : skipFields inner number bound input = .ok () rest) :
    ∃ raw depth, input = raw ++ rest ∧ depth ≤ left + 1 ∧ Form ⟨number, .startGroup⟩ raw depth := by
  induction bound generalizing input with
  | zero => cases h
  | succ bound ih =>
      rw [skipFields_succ] at h
      split at h
      · cases h
      · split at h
        · cases h
        · cases h
        · next tag behind hread =>
            obtain ⟨front, rfl, hfront⟩ := (Tag.read_reads _ _ _).mp hread
            split at h
            · next hend =>
                split at h
                · next hnumber =>
                    cases h
                    have htag : tag = ⟨number, .endGroup⟩ := by rw [← hend, ← hnumber]
                    rw [htag] at hfront
                    exact ⟨front, 1, rfl, by omega, .groupEnd hfront⟩
                · cases h
            · split at h
              · cases h
              · next after hskip =>
                  obtain ⟨payload, rfl, depth, hdepth, hpayload⟩ := (hinner tag _ _ _).mp hskip
                  obtain ⟨body, depth', rfl, hdepth', hbody⟩ := ih h
                  refine ⟨front ++ (payload ++ body), max (depth + 1) depth', by simp, by omega, ?_⟩
                  exact .groupField hfront hpayload hbody

theorem skipFields_of_form {raw : Bytes} {depth : Nat}
    (h : Form ⟨number, .startGroup⟩ raw depth) (hdepth : depth ≤ left + 1) {bound : Nat}
    (hbound : raw.length < bound) (rest : Bytes) :
    skipFields inner number bound (raw ++ rest) = .ok () rest := by
  generalize htag : (⟨number, .startGroup⟩ : Tag) = tag at h
  induction h generalizing bound with
  | varint hraw => cases htag
  | fixed64 hraw => cases htag
  | fixed32 hraw => cases htag
  | lengthDelimited hraw => cases htag
  | @groupEnd _ raw hraw =>
      cases htag
      have hpos := hraw.length_pos
      obtain ⟨bound, rfl⟩ := Nat.exists_eq_add_one.mpr (show 0 < bound by omega)
      rw [skipFields_succ, hraw.isEmpty_append, hraw.read_append]
      simp
  | @groupField _ tag front payload body d e hfront hpayload hbody _ ih =>
      cases htag
      have hpos := hfront.length_pos
      simp only [List.length_append] at hbound
      obtain ⟨bound, rfl⟩ := Nat.exists_eq_add_one.mpr (show 0 < bound by omega)
      have hskip : inner tag (payload ++ (body ++ rest)) = .ok () (body ++ rest) :=
        (hinner tag).ok_append ⟨d, by omega, hpayload⟩ _
      have hrest : skipFields inner number bound (body ++ rest) = .ok () rest :=
        ih (by omega) (by omega) rfl
      simp only [List.append_assoc]
      rw [skipFields_succ, hfront.isEmpty_append, hfront.read_append]
      simp only [hpayload.wireType_ne_endGroup, hskip, hrest, if_false, Bool.false_eq_true]

end

/-! ## Passing over any payload -/

theorem skip_startGroup (max left : Nat) {tag : Tag} (h : tag.wireType = .startGroup)
    (input : Bytes) : skip max (left + 1) tag input =
      skipFields (skip max left) tag.number (input.length + 1) input := by
  unfold skip
  rw [h]
  rfl

theorem skip_congr_of_ne_startGroup (max max' left left' : Nat) {tag : Tag}
    (h : tag.wireType ≠ .startGroup) : skip max left tag = skip max' left' tag := by
  unfold skip
  cases hwire : tag.wireType with
  | startGroup => exact (h hwire).elim
  | varint => rfl
  | fixed64 => rfl
  | lengthDelimited => rfl
  | endGroup => rfl
  | fixed32 => rfl

theorem skip_reads_of_ne_startGroup (max left : Nat) {tag : Tag} (h : tag.wireType ≠ .startGroup) :
    (skip max left tag).Reads fun raw _ => ∃ depth, depth ≤ left ∧ Form tag raw depth := by
  obtain ⟨number, wireType⟩ := tag
  unfold skip
  cases wireType with
  | varint =>
      refine (Reader.varint_reads _).discard.congr fun raw _ => ?_
      constructor
      · intro h
        obtain ⟨value, hraw⟩ := h
        exact ⟨0, Nat.zero_le _, .varint hraw⟩
      · intro h
        obtain ⟨_, _, hform⟩ := h
        cases hform with
        | @varint _ _ n hraw =>
            exact ⟨UInt64.ofNat n, by rwa [UInt64.toNat_ofNat_of_lt' hraw.lt_two_pow]⟩
  | fixed64 =>
      refine (Reader.bytes_reads 8 _).discard.congr fun raw _ => ?_
      constructor
      · intro h
        obtain ⟨_, rfl, hlength⟩ := h
        exact ⟨0, Nat.zero_le _, .fixed64 hlength⟩
      · intro h
        obtain ⟨_, _, hform⟩ := h
        cases hform with
        | fixed64 hraw => exact ⟨raw, rfl, hraw⟩
  | fixed32 =>
      refine (Reader.bytes_reads 4 _).discard.congr fun raw _ => ?_
      constructor
      · intro h
        obtain ⟨_, rfl, hlength⟩ := h
        exact ⟨0, Nat.zero_le _, .fixed32 hlength⟩
      · intro h
        obtain ⟨_, _, hform⟩ := h
        cases hform with
        | fixed32 hraw => exact ⟨raw, rfl, hraw⟩
  | lengthDelimited =>
      refine (Reader.prefixed_reads _).discard.congr fun raw _ => ?_
      constructor
      · intro h
        obtain ⟨content, hraw⟩ := h
        exact ⟨0, Nat.zero_le _, .lengthDelimited hraw⟩
      · intro h
        obtain ⟨_, _, hform⟩ := h
        cases hform with
        | lengthDelimited hraw => exact ⟨_, hraw⟩
  | startGroup => exact (h rfl).elim
  | endGroup =>
      refine (Reader.Reads.throw _).congr fun raw _ => ?_
      simp only [false_iff]
      intro h
      obtain ⟨_, _, hform⟩ := h
      exact hform.wireType_ne_endGroup rfl

/-- A payload is passed over within the levels that its groups need, and not within fewer. -/
theorem skip_reads (max left : Nat) (tag : Tag) :
    (skip max left tag).Reads fun raw _ => ∃ depth, depth ≤ left ∧ Form tag raw depth := by
  induction left generalizing tag with
  | zero =>
      by_cases hgroup : tag.wireType = .startGroup
      · obtain ⟨number, wireType⟩ := tag
        cases hgroup
        refine (Reader.Reads.throw (.depthExceeded max)).congr fun raw _ => ?_
        simp only [false_iff]
        intro h
        obtain ⟨depth, hdepth, hform⟩ := h
        cases hform <;> omega
      · exact skip_reads_of_ne_startGroup max 0 hgroup
  | succ left ih =>
      by_cases hgroup : tag.wireType = .startGroup
      · obtain ⟨number, wireType⟩ := tag
        cases hgroup
        intro input _ rest
        rw [skip_startGroup max left rfl]
        constructor
        · intro h
          obtain ⟨raw, depth, hinput, hdepth, hform⟩ := form_of_skipFields ih h
          exact ⟨raw, hinput, depth, hdepth, hform⟩
        · intro h
          obtain ⟨raw, rfl, depth, hdepth, hform⟩ := h
          exact skipFields_of_form ih hform hdepth (by simp only [List.length_append]; omega) rest
      · exact skip_reads_of_ne_startGroup max (left + 1) hgroup

end Payload

end TestWire
