import TestWire.Proofs.Message.Relay

/-! # Messages of one unknown field

Measuring refuses the unknown fields that would not be read back as such, and no others: a field
passes the check exactly when its bytes decode to the message that holds it alone.
-/

namespace TestWire

theorem Schema.refusal?_eq_some {s : Schema} {field : UnknownField} {error : EncodeError}
    (h : s.refusal? field = some error) :
    error = if field.number = 0 ∨ Limits.maxFieldNumber < field.number.toNat then
      .invalidFieldNumber field.number
    else
      .knownFieldConflict s.name field.number := by
  unfold refusal? at h
  by_cases hnumber : field.number = 0 ∨ Limits.maxFieldNumber < field.number.toNat
  · rw [if_pos hnumber] at h ⊢
    cases h
    rfl
  · rw [if_neg hnumber] at h ⊢
    split at h
    · cases h
      rfl
    · cases h

namespace Message

def ofUnknown (s : Schema) (field : UnknownField) : Message s :=
  (empty s).withUnknown [field]

section

variable (s : Schema) (field : UnknownField)

theorem plain_ofUnknown : (ofUnknown s field).plain = field.encode := by
  have hencode : UnknownFields.encode [field] = field.encode := by simp
  cases s with
  | value => exact hencode
  | composite => exact hencode
  | bits => exact hencode

theorem norm_ofUnknown : (ofUnknown s field).norm = ofUnknown s field := by
  cases s <;> rfl

theorem everyUnknown_ofUnknown : (ofUnknown s field).everyUnknown = [(s, field)] := by
  cases s <;> rfl

theorem nesting_ofUnknown : (ofUnknown s field).nesting = field.nesting := by
  have hnesting : UnknownFields.nesting [field] = field.nesting := Nat.max_zero _
  cases s with
  | value => exact hnesting
  | composite => exact (Nat.zero_max _).trans hnesting
  | bits => exact hnesting

theorem violations_ofUnknown (maxDepth : Nat) :
    (ofUnknown s field).violations maxDepth = (s.refusal? field).toList := by
  have hrefusals : s.refusals [field] = (s.refusal? field).toList := by
    rw [Schema.refusals, List.filterMap_cons]
    cases s.refusal? field <;> rfl
  rw [← hrefusals]
  cases s with
  | value => cases maxDepth <;> rfl
  | composite => cases maxDepth <;> rfl
  | bits => rfl

end

variable {s : Schema} {field : UnknownField}

theorem intact_ofUnknown_iff {left : Nat} :
    (ofUnknown s field).Intact left ↔ field.nesting ≤ left ∧ s.Foreign field := by
  have hlevels : (ofUnknown s field).levels UnknownFields.nesting = field.nesting :=
    nesting_ofUnknown s field
  unfold Message.Intact Message.Within
  rw [hlevels, everyUnknown_ofUnknown, List.forall_mem_singleton]

theorem encodedSize_ofUnknown (maxDepth : Nat) :
    encodedSize maxDepth (ofUnknown s field) =
      (s.refusal? field).elim (.ok field.encode.length) .error := by
  rw [encodedSize_eq, violations_ofUnknown, plain_ofUnknown]
  cases s.refusal? field <;> rfl

/-- The bytes of a field decode to the message of that field when it is foreign to the type. -/
theorem decode_ofUnknown_iff {limits : DecodeLimits} (hnesting : field.nesting ≤ limits.maxDepth)
    (hsize : field.encode.length ≤ limits.maxSize) (hword : field.encode.length < 2 ^ 64) :
    decode s limits field.encode = .ok (ofUnknown s field) ↔ s.Foreign field := by
  constructor
  · intro hdecode
    exact (intact_ofUnknown_iff.mp (intact_of_decode hdecode)).2
  · intro hforeign
    have hintact : (ofUnknown s field).Intact limits.maxDepth :=
      intact_ofUnknown_iff.mpr ⟨hnesting, hforeign⟩
    rw [← plain_ofUnknown s] at hword
    have hmerges := hintact.merges_plain hword
    rw [plain_ofUnknown, norm_ofUnknown] at hmerges
    exact decode_eq_ok_iff.mpr ⟨hsize, hmerges⟩

/--
The check on unknown fields is exact.  A message with nothing but an unknown field, of any length
that 64 bits can tell, has a size exactly when the bytes of the field decode to that message again,
within limits that have room for them.  It is encoded if these bytes are not too many besides.  A
field that does not pass is refused for its number, when that is not valid, and otherwise for being
known.
-/
theorem unknown_accepted_iff_decodes (hgenuine : field.Genuine) (limits : DecodeLimits)
    (hnesting : field.nesting ≤ limits.maxDepth) (hsize : field.encode.length ≤ limits.maxSize)
    (hword : field.encode.length < 2 ^ 64) (s : Schema) (maxDepth : Nat) :
    ((∃ size, encodedSize maxDepth (ofUnknown s field) = .ok size) ↔
      decode s limits field.encode = .ok (ofUnknown s field)) ∧
    ((∃ bytes, encode maxDepth (ofUnknown s field) = .ok bytes) ↔
      field.encode.length ≤ Limits.maxEncodedSize ∧
        decode s limits field.encode = .ok (ofUnknown s field)) ∧
    ∀ error, encodedSize maxDepth (ofUnknown s field) = .error error →
      encode maxDepth (ofUnknown s field) = .error error ∧
      error = if field.number = 0 ∨ Limits.maxFieldNumber < field.number.toNat then
        .invalidFieldNumber field.number
      else
        .knownFieldConflict s.name field.number := by
  have hraw : field.raw.length ≤ field.encode.length := by
    rw [UnknownField.encode, List.length_append]
    omega
  have hform : field.WellFormed := hgenuine.wellFormed (by omega)
  rw [decode_ofUnknown_iff hnesting hsize hword, ← Schema.refusal?_eq_none_iff hform,
    encodedSize_ofUnknown]
  refine ⟨?_, ?_, ?_⟩
  · cases s.refusal? field with
    | none => simp
    | some error => simp
  · simp only [encode_eq_ok_iff, violations_ofUnknown, plain_ofUnknown]
    cases s.refusal? field with
    | none => simp
    | some error => simp
  · intro error herror
    have hencode : encode maxDepth (ofUnknown s field) = .error error := by
      rw [encode_eq, encodedSize_ofUnknown, herror]
      rfl
    refine ⟨hencode, Schema.refusal?_eq_some ?_⟩
    cases hrefusal : s.refusal? field with
    | none =>
        rw [hrefusal] at herror
        cases herror
    | some error' =>
        rw [hrefusal] at herror
        cases herror
        rfl

/--
A group is unknown to a bit string and comes back as it is.  A field of number zero is refused; its
tag ends the message that it is read as, which stays empty.
-/
theorem unknown_accepted_iff_decodes_group :
    encode 0 (ofUnknown .bits ⟨1, .startGroup, [0x0c]⟩) = .ok [0x0b, 0x0c] ∧
    decode .bits ⟨1, 2⟩ [0x0b, 0x0c] = .ok (ofUnknown .bits ⟨1, .startGroup, [0x0c]⟩) ∧
    encode 0 (ofUnknown .bits (.varint 0 7)) = .error (.invalidFieldNumber 0) ∧
    decode .bits ⟨1, 2⟩ [0, 7] = .ok (empty .bits) ∧
    decode .bits ⟨1, 2⟩ [0, 7] ≠ .ok (ofUnknown .bits (.varint 0 7)) := by
  have hread : UnknownField.read 1 1 ⟨1, .startGroup⟩ [0x0c] =
      .ok ⟨1, .startGroup, [0x0c]⟩ [] := rfl
  have hgroup : encode 0 (ofUnknown .bits ⟨1, .startGroup, [0x0c]⟩) = .ok [0x0b, 0x0c] :=
    encode_eq_ok_iff.mpr ⟨rfl, by decide +kernel, by decide +kernel⟩
  have hsize : encodedSize 0 (ofUnknown .bits (.varint 0 7)) = .error (.invalidFieldNumber 0) := by
    rw [encodedSize_ofUnknown]
    rfl
  have hcaptured := unknown_accepted_iff_decodes (.captured hread) ⟨1, 2⟩
    (by decide +kernel) (by decide +kernel) (by decide +kernel) .bits 0
  have hzero := unknown_accepted_iff_decodes (.varint 0 7) ⟨1, 2⟩
    (by decide +kernel) (by decide +kernel) (by decide +kernel) .bits 0
  refine ⟨hgroup, (hcaptured.2.1.mp ⟨_, hgroup⟩).2, (hzero.2.2 _ hsize).1, rfl, ?_⟩
  intro hdecode
  obtain ⟨size, haccepted⟩ := hzero.1.mpr hdecode
  rw [hsize] at haccepted
  cases haccepted

end Message

end TestWire
