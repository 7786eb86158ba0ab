import TestWire.Proofs.Wire.Payload
import TestWire.Wire.UnknownField

/-! # Unknown fields and their groups

A field is well formed when its bytes are one payload of its wire type, and it is read back within
as many levels as it has groups that are open at once.
-/

namespace TestWire

/-- The most groups open at once from here on; the count stops where none is open any more. -/
def Payload.groupsOpen : Nat → Nat → Bytes → Nat
  | 0, opened, _ => opened
  | _ + 1, 0, _ => 0
  | bound + 1, opened + 1, input =>
      match Tag.read input with
      | .ok (some tag) rest =>
          if tag.wireType = .startGroup then
            groupsOpen bound (opened + 2) rest
          else if tag.wireType = .endGroup then
            max (opened + 1) (groupsOpen bound opened rest)
          else
            match Payload.skip 0 0 tag rest with
            | .ok () rest => groupsOpen bound (opened + 1) rest
            | .error .. => opened + 1
      | _ => opened + 1

namespace UnknownField

/-- The levels of groups in a field; only a group has any. -/
def nesting (field : UnknownField) : Nat :=
  if field.wireType = .startGroup then
    Payload.groupsOpen (field.raw.length + 1) 1 field.raw
  else
    0

/-- The bytes behind the tag are one payload of the field's wire type. -/
def WellFormed (field : UnknownField) : Prop :=
  ∃ depth, Payload.Form field.tag field.raw depth

/-- The fields there are: built from a value, or read off some input. -/
inductive Genuine : UnknownField → Prop
  | varint (number : UInt32) (value : UInt64) : Genuine (.varint number value)
  | fixed64 (number : UInt32) (value : UInt64) : Genuine (.fixed64 number value)
  | fixed32 (number : UInt32) (value : UInt32) : Genuine (.fixed32 number value)
  | lengthDelimited (number : UInt32) (payload : Bytes) : Genuine (.lengthDelimited number payload)
  | captured {max left : Nat} {tag : Tag} {input rest : Bytes} {field : UnknownField}
      (h : UnknownField.read max left tag input = .ok field rest) : Genuine field

end UnknownField

/-! ## Counting groups -/

namespace Payload

theorem Form.depth_pos {number : UInt32} {raw : Bytes} {depth : Nat}
    (h : Form ⟨number, .startGroup⟩ raw depth) : 0 < depth := by
  cases h <;> omega

theorem Form.depth_eq_zero {tag : Tag} {raw : Bytes} {depth : Nat} (h : Form tag raw depth)
    (hgroup : tag.wireType ≠ .startGroup) : depth = 0 := by
  cases h <;> first | rfl | exact (hgroup rfl).elim

theorem skip_append_of_form {tag : Tag} {raw : Bytes} {depth : Nat} (h : Form tag raw depth)
    {left : Nat} (hdepth : depth ≤ left) (max : Nat) (rest : Bytes) :
    skip max left tag (raw ++ rest) = .ok () rest :=
  (skip_reads max left tag).ok_append ⟨depth, hdepth, h⟩ rest

/-- The count over the body of an open group is that over what follows, and the group's depth. -/
theorem groupsOpen_append {number : UInt32} {raw : Bytes} {depth : Nat}
    (h : Form ⟨number, .startGroup⟩ raw depth) (opened : Nat) (rest : Bytes) {bound : Nat}
    (hbound : (raw ++ rest).length < bound) :
    ∃ bound', rest.length < bound' ∧
      groupsOpen bound (opened + 1) (raw ++ rest) =
        max (opened + depth) (groupsOpen bound' opened rest) := by
  generalize htag : (⟨number, .startGroup⟩ : Tag) = tag at h
  induction h generalizing number opened rest bound with
  | varint hraw => cases htag
  | fixed64 hraw => cases htag
  | fixed32 hraw => cases htag
  | lengthDelimited hraw => cases htag
  | @groupEnd _ raw hraw =>
      cases htag
      have hpos := hraw.length_pos
      rw [List.length_append] at hbound
      obtain ⟨bound, rfl⟩ := Nat.exists_eq_add_one.mpr (show 0 < bound by omega)
      refine ⟨bound, by omega, ?_⟩
      rw [groupsOpen, hraw.read_append]
      simp
  | @groupField _ tag front payload body d e hfront hpayload hbody ihpayload ihbody =>
      cases htag
      have hpos := hfront.length_pos
      simp only [List.length_append] at hbound
      obtain ⟨bound, rfl⟩ := Nat.exists_eq_add_one.mpr (show 0 < bound by omega)
      simp only [List.append_assoc]
      rw [groupsOpen, hfront.read_append]
      by_cases hgroup : tag.wireType = .startGroup
      · obtain ⟨number', wireType⟩ := tag
        cases hgroup
        have hlength : (payload ++ (body ++ rest)).length < bound := by
          simp only [List.length_append]
          omega
        obtain ⟨bound', hbound', hcount⟩ := ihpayload (opened + 1) (body ++ rest) hlength rfl
        obtain ⟨bound'', hbound'', hcount'⟩ := ihbody opened rest hbound' rfl
        refine ⟨bound'', hbound'', ?_⟩
        simp only [if_true, hcount, hcount']
        omega
      · have hzero := hpayload.depth_eq_zero hgroup
        have hpositive := hbody.depth_pos
        have hlength : (body ++ rest).length < bound := by
          simp only [List.length_append]
          omega
        obtain ⟨bound', hbound', hcount⟩ := ihbody opened rest hlength rfl
        refine ⟨bound', hbound', ?_⟩
        simp only [hgroup, hpayload.wireType_ne_endGroup, if_false,
          skip_append_of_form hpayload (Nat.le_of_eq hzero) 0, hcount]
        omega

end Payload

namespace UnknownField

theorem nesting_eq_of_form {field : UnknownField} {depth : Nat}
    (h : Payload.Form field.tag field.raw depth) : field.nesting = depth := by
  obtain ⟨number, wireType, raw⟩ := field
  by_cases hgroup : wireType = .startGroup
  · cases hgroup
    have hlength : (raw ++ []).length < raw.length + 1 := by simp
    obtain ⟨bound, hbound, hcount⟩ := Payload.groupsOpen_append h 0 [] hlength
    obtain ⟨bound, rfl⟩ := Nat.exists_eq_add_one.mpr (show 0 < bound by omega)
    simp only [List.append_nil] at hcount
    simpa [nesting, Payload.groupsOpen] using hcount
  · simp [nesting, hgroup, h.depth_eq_zero hgroup]

theorem wellFormed_iff {field : UnknownField} :
    field.WellFormed ↔ Payload.Form field.tag field.raw field.nesting := by
  constructor
  · intro h
    obtain ⟨depth, hform⟩ := h
    rwa [nesting_eq_of_form hform]
  · intro h
    exact ⟨_, h⟩

theorem read_eq (max left : Nat) (tag : Tag) (input : Bytes) :
    UnknownField.read max left tag input =
      match Payload.skip max left tag input with
      | .ok () behind =>
          .ok ⟨tag.number, tag.wireType, input.take (input.length - behind.length)⟩ behind
      | .error error behind => .error error behind := by
  have hget (bytes : Bytes) : (get : Reader Bytes) bytes = .ok bytes bytes := rfl
  simp only [UnknownField.read, Reader.bind_apply, hget]
  cases Payload.skip max left tag input <;> rfl

theorem read_reads (max left : Nat) (tag : Tag) :
    (UnknownField.read max left tag).Reads fun raw field =>
      field.tag = tag ∧ field.raw = raw ∧ field.WellFormed ∧ field.nesting ≤ left := by
  intro input field rest
  rw [read_eq]
  constructor
  · intro h
    split at h
    · next behind hskip =>
        cases h
        obtain ⟨raw, rfl, depth, hdepth, hform⟩ := (Payload.skip_reads max left tag _ _ _).mp hskip
        have htake : (raw ++ rest).take ((raw ++ rest).length - rest.length) = raw := by simp
        have hnesting : (⟨tag.number, tag.wireType, raw⟩ : UnknownField).nesting = depth :=
          nesting_eq_of_form hform
        rw [htake]
        exact ⟨raw, rfl, rfl, rfl, ⟨depth, hform⟩, by omega⟩
    · cases h
  · intro h
    obtain ⟨raw, rfl, rfl, rfl, hform, hnesting⟩ := h
    rw [wellFormed_iff] at hform
    rw [Payload.skip_append_of_form hform hnesting]
    simp [tag]

theorem Genuine.wellFormed {field : UnknownField} (h : field.Genuine)
    (hsize : field.raw.length < 2 ^ 64) : field.WellFormed := by
  cases h with
  | varint number value => exact ⟨0, .varint (Varint.spelling_encode value)⟩
  | fixed64 number value => exact ⟨0, .fixed64 (by simp [UnknownField.fixed64])⟩
  | fixed32 number value => exact ⟨0, .fixed32 (by simp [UnknownField.fixed32])⟩
  | lengthDelimited number payload =>
      simp only [UnknownField.lengthDelimited, Varint.length_encodePrefixed,
        Varint.prefixedSize] at hsize
      exact ⟨0, .lengthDelimited (Varint.prefixed_encodePrefixed (by omega))⟩
  | captured h =>
      obtain ⟨_, _, _, _, hform, _⟩ := (read_reads _ _ _ _ _ _).mp h
      exact hform

theorem payload_of_prefixed {field : UnknownField} {body : Bytes}
    (hwire : field.wireType = .lengthDelimited) (h : Varint.Prefixed field.raw body) :
    field.payload = body := by
  have hread : Reader.prefixed "unknown field" (field.raw ++ []) = .ok body [] :=
    (Reader.prefixed_reads _).ok_append h []
  rw [List.append_nil] at hread
  unfold payload
  rw [if_pos hwire, hread]

/-- Of a field that was read, the payload is what stands behind its length, if it has one. -/
theorem WellFormed.payload {field : UnknownField} (h : field.WellFormed) :
    if field.wireType = .lengthDelimited then Varint.Prefixed field.raw field.payload
    else field.payload = field.raw := by
  split
  · next hwire =>
      obtain ⟨content, hcontent⟩ : ∃ content, Varint.Prefixed field.raw content := by
        rcases h with ⟨depth, hform⟩
        have htag : field.tag = ⟨field.number, .lengthDelimited⟩ := congrArg (Tag.mk _) hwire
        rw [htag] at hform
        cases hform with
        | lengthDelimited hraw => exact ⟨_, hraw⟩
      rw [payload_of_prefixed hwire hcontent]
      exact hcontent
  · next hwire => exact if_neg hwire

end UnknownField

end TestWire
