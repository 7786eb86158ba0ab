import TestWire.Proofs.Wire.Truncation

/-! # The extent of a payload

A group ends where its own end tag stands.  The grammar puts groups into each other; read from left
to right they make a stack of open groups.  Both views give a group the same extent.
-/

namespace TestWire

namespace Payload

/-- The stack of open groups, the innermost one first, before and behind `front`, and its peak. -/
inductive Nests : List UInt32 → Bytes → List UInt32 → Nat → Prop
  | stay (opened : List UInt32) : Nests opened [] opened opened.length
  | start {number inner : UInt32} {opened opened' : List UInt32} {front rest : Bytes} {peak : Nat}
      (hfront : Tag.Spelling front ⟨inner, .startGroup⟩)
      (hrest : Nests (inner :: number :: opened) rest opened' peak) :
      Nests (number :: opened) (front ++ rest) opened' peak
  /-- A payload without a group of its own; it stands in a group like all that is followed. -/
  | plain {number : UInt32} {opened opened' : List UInt32} {tag : Tag} {front payload rest : Bytes}
      {peak : Nat} (hfront : Tag.Spelling front tag) (hpayload : Form tag payload 0)
      (hrest : Nests (number :: opened) rest opened' peak) :
      Nests (number :: opened) (front ++ (payload ++ rest)) opened' peak
  | close {number : UInt32} {opened opened' : List UInt32} {front rest : Bytes} {peak : Nat}
      (hfront : Tag.Spelling front ⟨number, .endGroup⟩) (hrest : Nests opened rest opened' peak) :
      Nests (number :: opened) (front ++ rest) opened' (max (opened.length + 1) peak)

/-- Where the body of a group breaks off between two fields, and the error that is found there. -/
inductive Stuck (number : UInt32) : Bytes → DecodeError → Prop
  | ended : Stuck number [] (.unterminatedGroup number)
  | zero {front : Bytes} (hfront : Varint.Spelling Limits.maxVarintBytes front 0) (more : Bytes) :
      Stuck number (front ++ more) (.invalidTag 0)
  | mismatched {other : UInt32} {front : Bytes} (hfront : Tag.Spelling front ⟨other, .endGroup⟩)
      (hother : other ≠ number) (more : Bytes) :
      Stuck number (front ++ more) (.invalidTag (Tag.raw ⟨other, .endGroup⟩))

def skipOpen (max left : Nat) : List UInt32 → Reader Unit
  | [] => pure ()
  | number :: opened => do
      skip max (left - opened.length) ⟨number, .startGroup⟩
      skipOpen max left opened

/-! ## The rest of a group is a group -/

section

variable {inner : Tag → Reader Unit} {number : UInt32}
  (hinner : ∀ tag input rest, inner tag input = .ok () rest → rest.length ≤ input.length)

include hinner

theorem skipFields_eq_skipFields {bound bound' : Nat} {input : Bytes}
    (hbound : input.length < bound) (hbound' : input.length < bound') :
    skipFields inner number bound input = skipFields inner number bound' input := by
  induction bound generalizing bound' input with
  | zero => omega
  | succ bound ih =>
      obtain ⟨bound', rfl⟩ := Nat.exists_eq_add_one.mpr (show 0 < bound' by omega)
      rw [skipFields_succ, skipFields_succ]
      cases htag : Tag.read input with
      | error error rest => rfl
      | ok tag? rest =>
          cases tag? with
          | none => rfl
          | some tag =>
              obtain ⟨front, rfl, hfront⟩ := (Tag.read_reads _ _ _).mp htag
              have hpos := hfront.length_pos
              rw [List.length_append] at hbound hbound'
              cases hskip : inner tag rest with
              | error error after => simp only [hskip]
              | ok _ after =>
                  have hle := hinner tag rest after hskip
                  have hsame : skipFields inner number bound after =
                      skipFields inner number bound' after := ih (by omega) (by omega)
                  simp only [hskip, hsame]

end

theorem length_le_of_skip {max left : Nat} {tag : Tag} {input rest : Bytes}
    (h : skip max left tag input = .ok () rest) : rest.length ≤ input.length := by
  obtain ⟨raw, rfl, _⟩ := (skip_reads max left tag _ _ _).mp h
  simp

section

variable (max left : Nat) (number : UInt32)

/-- Behind each of its fields the rest of a group is passed over like the group itself. -/
theorem skip_group_cons (b : UInt8) (input : Bytes) :
    skip max (left + 1) ⟨number, .startGroup⟩ (b :: input) =
      (Tag.read >>= skipTagged (skip max left) number
        (skip max (left + 1) ⟨number, .startGroup⟩)) (b :: input) := by
  rw [skip_startGroup max left rfl, skipFields_cons, Reader.bind_apply, Reader.bind_apply]
  cases htag : Tag.read (b :: input) with
  | error error rest => rfl
  | ok tag? rest =>
      cases tag? with
      | none => rfl
      | some tag =>
          obtain ⟨front, hinput, hfront⟩ := (Tag.read_reads _ _ _).mp htag
          have hpos := hfront.length_pos
          have hlength := congrArg List.length hinput
          rw [List.length_append] at hlength
          simp only [skipTagged]
          split
          · rfl
          · rw [Reader.bind_apply, Reader.bind_apply]
            cases hskip : skip max left tag rest with
            | error error after => rfl
            | ok _ after =>
                have hle := length_le_of_skip hskip
                dsimp only
                rw [skip_startGroup max left rfl]
                exact skipFields_eq_skipFields (fun _ _ _ => length_le_of_skip) (by omega)
                  (by omega)

theorem skip_group_append {front : Bytes} {tag : Tag} (hfront : Tag.Spelling front tag)
    (input : Bytes) :
    skip max (left + 1) ⟨number, .startGroup⟩ (front ++ input) =
      skipTagged (skip max left) number (skip max (left + 1) ⟨number, .startGroup⟩) (some tag)
        input := by
  have hread := hfront.read_append input
  have hempty := hfront.isEmpty_append input
  cases hcons : front ++ input with
  | nil => simp [hcons] at hempty
  | cons b behind =>
      rw [hcons] at hread
      rw [skip_group_cons, Reader.bind_apply, hread]

theorem skip_group_field {front : Bytes} {tag : Tag} (hfront : Tag.Spelling front tag)
    (hend : tag.wireType ≠ .endGroup) (input : Bytes) :
    skip max (left + 1) ⟨number, .startGroup⟩ (front ++ input) =
      (skip max left tag >>= fun _ => skip max (left + 1) ⟨number, .startGroup⟩) input := by
  rw [skip_group_append max left number hfront, skipTagged, if_neg hend]

theorem skip_group_close {front : Bytes} (hfront : Tag.Spelling front ⟨number, .endGroup⟩)
    (input : Bytes) :
    skip max (left + 1) ⟨number, .startGroup⟩ (front ++ input) = .ok () input := by
  rw [skip_group_append max left number hfront, skipTagged, if_pos rfl, if_pos rfl]
  rfl

theorem skip_group_of_stuck {input : Bytes} {error : DecodeError}
    (h : Stuck number input error) :
    ∃ rest, skip max (left + 1) ⟨number, .startGroup⟩ input = .error error rest := by
  cases h with
  | ended =>
      refine ⟨[], ?_⟩
      rw [skip_startGroup max left rfl, skipFields_succ]
      rfl
  | @zero front hfront more =>
      have hread : Tag.read (front ++ more) = .ok none more :=
        (Tag.read_reads _ _ _).mpr ⟨front, rfl, hfront⟩
      have hpos := hfront.length_pos
      have hempty : (front ++ more).isEmpty = false := by
        cases front with
        | nil => simp at hpos
        | cons => rfl
      refine ⟨more, ?_⟩
      rw [skip_startGroup max left rfl, skipFields_succ, hempty, hread]
      rfl
  | @mismatched other front hfront hother more =>
      refine ⟨more, ?_⟩
      rw [skip_group_append max left number hfront, skipTagged, if_pos rfl, if_neg hother]
      rfl

end

/-! ## Following the open groups -/

section

variable {left peak depth : Nat} {number : UInt32} {opened opened' : List UInt32}
  {front raw rest : Bytes}

theorem Nests.length_le (h : Nests opened front opened' peak) : opened.length ≤ peak := by
  induction h with
  | stay opened => exact Nat.le_refl _
  | start _ _ ih =>
      simp only [List.length_cons] at ih ⊢
      omega
  | plain _ _ _ ih => exact ih
  | close _ _ _ =>
      rw [List.length_cons]
      omega

theorem Nests.length_le_of_end (h : Nests opened front opened' peak) : opened'.length ≤ peak := by
  induction h with
  | stay opened => exact Nat.le_refl _
  | start _ _ ih => exact ih
  | plain _ _ _ ih => exact ih
  | close _ _ ih => exact Nat.le_trans ih (Nat.le_max_right _ _)

/-- Behind what was followed, the groups that are open there are still to be passed over. -/
theorem Nests.skipOpen_append (h : Nests opened front opened' peak) (hpeak : peak ≤ left)
    (max : Nat) (more : Bytes) :
    skipOpen max left opened (front ++ more) = skipOpen max left opened' more := by
  induction h with
  | stay opened => rfl
  | @start number inner opened opened' front rest peak hfront hrest ih =>
      have hlength := hrest.length_le
      simp only [List.length_cons] at hlength
      have hleft : left - opened.length = left - (opened.length + 1) + 1 := by omega
      rw [← ih hpeak]
      simp only [skipOpen, List.length_cons]
      rw [hleft, List.append_assoc, Reader.bind_apply,
        skip_group_field _ _ _ hfront (by simp), Reader.bind_apply, Reader.bind_apply]
      cases skip max (left - (opened.length + 1)) ⟨inner, .startGroup⟩ (rest ++ more) with
      | error error behind => rfl
      | ok _ behind =>
          dsimp only
          rw [Reader.bind_apply]
  | @plain number opened opened' tag front payload rest peak hfront hpayload hrest ih =>
      have hlength := hrest.length_le
      simp only [List.length_cons] at hlength
      have hleft : left - opened.length = left - (opened.length + 1) + 1 := by omega
      rw [← ih hpeak]
      simp only [skipOpen]
      rw [hleft, List.append_assoc, List.append_assoc, Reader.bind_apply,
        skip_group_field _ _ _ hfront hpayload.wireType_ne_endGroup, Reader.bind_apply,
        skip_append_of_form hpayload (Nat.zero_le _), Reader.bind_apply]
  | @close number opened opened' front rest peak hfront hrest ih =>
      have hleft : left - opened.length = left - (opened.length + 1) + 1 := by omega
      rw [← ih (by omega)]
      simp only [skipOpen]
      rw [hleft, List.append_assoc, Reader.bind_apply, skip_group_close _ _ _ hfront]

theorem skipOpen_singleton (max left : Nat) (number : UInt32) (input : Bytes) :
    skipOpen max left [number] input = skip max left ⟨number, .startGroup⟩ input := by
  simp only [skipOpen, List.length_nil, Nat.sub_zero]
  rw [Reader.bind_apply]
  cases skip max left ⟨number, .startGroup⟩ input <;> rfl

theorem Form.nests (h : Form ⟨number, .startGroup⟩ raw depth)
    (hrest : Nests opened rest opened' peak) :
    Nests (number :: opened) (raw ++ rest) opened' (max (opened.length + depth) peak) := by
  generalize htag : (⟨number, .startGroup⟩ : Tag) = tag at h
  induction h generalizing number opened rest peak with
  | varint hraw => cases htag
  | fixed64 hraw => cases htag
  | fixed32 hraw => cases htag
  | lengthDelimited hraw => cases htag
  | groupEnd hraw =>
      cases htag
      exact .close hraw hrest
  | @groupField _ tag front payload body depth depth' hfront hpayload hbody ihpayload ihbody =>
      cases htag
      have hbehind := ihbody hrest rfl
      simp only [List.append_assoc]
      by_cases hgroup : tag.wireType = .startGroup
      · obtain ⟨inner, wireType⟩ := tag
        cases hgroup
        have hopened := ihpayload hbehind rfl
        have hpeak : max (opened.length + 1 + depth) (max (opened.length + depth') peak) =
            max (opened.length + max (depth + 1) depth') peak := by omega
        rw [List.length_cons, hpeak] at hopened
        exact .start hfront hopened
      · have hzero := hpayload.depth_eq_zero hgroup
        have hpos := hbody.depth_pos
        have hpeak : max (opened.length + depth') peak =
            max (opened.length + max (depth + 1) depth') peak := by omega
        rw [hpeak] at hbehind
        rw [hzero] at hpayload
        exact .plain hfront hpayload hbehind

/-- A group ends where the stack that it starts is empty. -/
theorem skip_group_eq_ok_iff {max : Nat} {input : Bytes} :
    skip max left ⟨number, .startGroup⟩ input = .ok () rest ↔
      ∃ raw peak, input = raw ++ rest ∧ peak ≤ left ∧ Nests [number] raw [] peak := by
  constructor
  · intro h
    obtain ⟨raw, hinput, depth, hdepth, hform⟩ := (skip_reads _ _ _ _ _ _).mp h
    have hnests := hform.nests (.stay [])
    simp only [List.append_nil, List.length_nil, Nat.zero_add, Nat.max_zero] at hnests
    exact ⟨raw, depth, hinput, hdepth, hnests⟩
  · intro h
    obtain ⟨raw, peak, rfl, hpeak, hnests⟩ := h
    rw [← skipOpen_singleton, hnests.skipOpen_append hpeak max]
    rfl

/-- Where the innermost open group is stuck, so is every group around it. -/
theorem Nests.skip_of_stuck {max : Nat} {inner : UInt32} {more : Bytes} {error : DecodeError}
    (h : Nests [number] front (inner :: opened) peak) (hpeak : peak ≤ left)
    (hstuck : Stuck inner more error) :
    ∃ rest, skip max left ⟨number, .startGroup⟩ (front ++ more) = .error error rest := by
  have hlength := h.length_le_of_end
  rw [List.length_cons] at hlength
  have hleft : left - opened.length = left - opened.length - 1 + 1 := by omega
  obtain ⟨rest, herror⟩ := skip_group_of_stuck max (left - opened.length - 1) inner hstuck
  refine ⟨rest, ?_⟩
  rw [← skipOpen_singleton, h.skipOpen_append hpeak max, skipOpen, hleft, Reader.bind_apply, herror]

end

/-! ## What is passed over -/

theorem Form.unique {tag : Tag} {input raw raw' : Bytes} {depth depth' : Nat}
    (hraw : raw <+: input) (h : Form tag raw depth) (hraw' : raw' <+: input)
    (h' : Form tag raw' depth') : raw = raw' ∧ depth = depth' := by
  obtain ⟨rest, rfl⟩ := hraw
  obtain ⟨rest', hinput⟩ := hraw'
  have hskip : skip 0 (max depth depth') tag (raw ++ rest) = .ok () rest :=
    skip_append_of_form h (Nat.le_max_left _ _) 0 rest
  have hskip' : skip 0 (max depth depth') tag (raw' ++ rest') = .ok () rest' :=
    skip_append_of_form h' (Nat.le_max_right _ _) 0 rest'
  rw [hinput, hskip] at hskip'
  cases hskip'
  obtain rfl : raw' = raw := List.append_cancel_right hinput
  have hnesting : (⟨tag.number, tag.wireType, raw'⟩ : UnknownField).nesting = depth :=
    UnknownField.nesting_eq_of_form h
  have hnesting' : (⟨tag.number, tag.wireType, raw'⟩ : UnknownField).nesting = depth' :=
    UnknownField.nesting_eq_of_form h'
  exact ⟨rfl, hnesting.symm.trans hnesting'⟩

end Payload

/-- An unknown field keeps the payload that was passed over. -/
theorem UnknownField.read_eq_ok_iff {max left : Nat} {tag : Tag} {input rest : Bytes}
    {field : UnknownField} :
    UnknownField.read max left tag input = .ok field rest ↔
      ∃ raw depth, input = raw ++ rest ∧ depth ≤ left ∧ Payload.Form tag raw depth ∧
        field = ⟨tag.number, tag.wireType, raw⟩ := by
  constructor
  · intro h
    obtain ⟨raw, hinput, rfl, rfl, hformed, hnesting⟩ :=
      (read_reads _ _ _ _ _ _).mp h
    exact ⟨field.raw, field.nesting, hinput, hnesting, wellFormed_iff.mp hformed, rfl⟩
  · intro h
    obtain ⟨raw, depth, rfl, hdepth, hform, rfl⟩ := h
    have hnesting : (⟨tag.number, tag.wireType, raw⟩ : UnknownField).nesting = depth :=
      nesting_eq_of_form hform
    rw [← hnesting] at hdepth
    exact (read_reads max left tag _ _ _).mpr
      ⟨raw, rfl, rfl, rfl, ⟨depth, hform⟩, hdepth⟩

namespace Payload

/--
What is passed over behind a tag is a payload of its wire type at the front of the input with no
more groups in each other than there are levels left; there is at most one, and it is what an
unknown field keeps.  A group ends where the stack that it starts is empty, so each end tag closes
the innermost open group; and no group is passed over when the innermost open one is stuck.
-/
theorem skip_extent (max left : Nat) (tag : Tag) (input : Bytes) :
    (∀ rest, skip max left tag input = .ok () rest ↔
      ∃ raw depth, input = raw ++ rest ∧ depth ≤ left ∧ Form tag raw depth) ∧
    (∀ raw raw' depth depth', raw <+: input → raw' <+: input → Form tag raw depth →
      Form tag raw' depth' → raw = raw' ∧ depth = depth') ∧
    (∀ field rest, UnknownField.read max left tag input = .ok field rest ↔
      ∃ raw depth, input = raw ++ rest ∧ depth ≤ left ∧ Form tag raw depth ∧
        field = ⟨tag.number, tag.wireType, raw⟩) ∧
    (tag.wireType = .startGroup →
      (∀ rest, skip max left tag input = .ok () rest ↔
        ∃ raw peak, input = raw ++ rest ∧ peak ≤ left ∧ Nests [tag.number] raw [] peak) ∧
      ∀ front more inner opened peak error, input = front ++ more →
        Nests [tag.number] front (inner :: opened) peak → Stuck inner more error →
        (peak ≤ left → ∃ rest, skip max left tag input = .error error rest) ∧
        ∀ rest, skip max left tag input ≠ .ok () rest) := by
  refine ⟨?_, ?_, fun _ _ => UnknownField.read_eq_ok_iff, ?_⟩
  · intro rest
    rw [skip_reads max left tag input () rest]
    simp only [exists_and_left]
  · intro raw raw' depth depth' hraw hraw' hform hform'
    exact hform.unique hraw hraw' hform'
  · obtain ⟨number, wireType⟩ := tag
    rintro ⟨⟩
    refine ⟨fun rest => skip_group_eq_ok_iff, ?_⟩
    rintro front more inner opened peak error rfl hnests hstuck
    constructor
    · intro hpeak
      exact hnests.skip_of_stuck hpeak hstuck
    · -- With levels enough the error is found, and fewer levels do not turn it into a success.
      intro rest hskip
      obtain ⟨raw, hinput, depth, hdepth, hform⟩ := (skip_reads _ _ _ _ _ _).mp hskip
      have hmore : skip max (Nat.max left peak) ⟨number, .startGroup⟩ (front ++ more) =
          .ok () rest :=
        (skip_reads _ _ _ _ _ _).mpr
          ⟨raw, hinput, depth, Nat.le_trans hdepth (Nat.le_max_left _ _), hform⟩
      obtain ⟨rest', herror⟩ := hnests.skip_of_stuck (Nat.le_max_right left peak) hstuck
      rw [herror] at hmore
      cases hmore

/-- A group of number nine inside another one: the first end tag closes the inner group only. -/
theorem skip_extent_reused :
    skip 2 2 ⟨9, .startGroup⟩ [0x4b, 0x4c, 0x4c, 7] = .ok () [7] ∧
    ∃ rest, skip 2 2 ⟨9, .startGroup⟩ [0x4b, 0x4c] = .error (.unterminatedGroup 9) rest := by
  have hstart : Tag.Spelling (Tag.encode ⟨9, .startGroup⟩) ⟨9, .startGroup⟩ :=
    Tag.spelling_encode (by decide)
  have hend : Tag.Spelling (Tag.encode ⟨9, .endGroup⟩) ⟨9, .endGroup⟩ :=
    Tag.spelling_encode (by decide)
  rw [show Tag.encode ⟨9, .startGroup⟩ = [0x4b] by decide] at hstart
  rw [show Tag.encode ⟨9, .endGroup⟩ = [0x4c] by decide] at hend
  have hinner : Nests [9] [0x4b, 0x4c] [9] 2 := .start hstart (.close hend (.stay [9]))
  have houter : Nests [9] [0x4b, 0x4c, 0x4c] [] 2 :=
    .start hstart (.close hend (.close hend (.stay [])))
  obtain ⟨_, _, _, hgroups⟩ := skip_extent 2 2 ⟨9, .startGroup⟩ [0x4b, 0x4c, 0x4c, 7]
  obtain ⟨_, _, _, hcut⟩ := skip_extent 2 2 ⟨9, .startGroup⟩ [0x4b, 0x4c]
  exact ⟨((hgroups rfl).1 [7]).mpr ⟨_, 2, rfl, Nat.le_refl 2, houter⟩,
    ((hcut rfl).2 _ [] 9 [] 2 _ (List.append_nil _).symm hinner .ended).1 (Nat.le_refl 2)⟩

end Payload

end TestWire
