import TestWire.Proofs.Message.FieldRow
import TestWire.Proofs.Message.RoundTrip

/-! # The fields of an encoding -/

namespace TestWire

/-- A field from its tag and what stands behind it. -/
def UnknownField.ofTag (tag : Tag) (raw : Bytes) : UnknownField where
  number := tag.number
  wireType := tag.wireType
  raw := raw

def Scalar.written (scalar : Scalar) : List UnknownField :=
  if scalar.isOmitted then [] else [.ofTag scalar.case.tag scalar.payload]

def Value.written : Value → List UnknownField
  | leaf content unknown => content.elim [] Scalar.written ++ unknown
  | aggregate values inner unknown =>
      .ofTag Case.aggregate.tag (Varint.encodePrefixed (Composite.plain ⟨values, inner⟩)) :: unknown

def Composite.written (c : Composite) : List UnknownField :=
  c.values.map (fun v => .ofTag elementTag (Varint.encodePrefixed v.plain)) ++ c.unknown

def BitString.written (b : BitString) : List UnknownField :=
  (if b.data.isEmpty then [] else [.ofTag dataTag (Varint.encodePrefixed b.data)]) ++
    (if b.nbits = 0 then [] else [.ofTag nbitsTag (Varint.encodeInt32 b.nbits)]) ++ b.unknown

/-- The fields at the top level of the encoding of a message, known and unknown ones. -/
def Message.written : {s : Schema} → Message s → List UnknownField
  | .value, v => Value.written v
  | .composite, c => Composite.written c
  | .bits, b => BitString.written b

def Value.fieldCount (v : Value) : Nat :=
  v.isSet.toNat + v.unknown.length

def Composite.fieldCount (c : Composite) : Nat :=
  c.values.length + c.unknown.length

def BitString.fieldCount (b : BitString) : Nat :=
  (!b.data.isEmpty).toNat + (b.nbits != 0).toNat + b.unknown.length

/-- How many fields a message has at the top level: what it holds, and its unknown fields. -/
def Message.fieldCount : {s : Schema} → Message s → Nat
  | .value, v => Value.fieldCount v
  | .composite, c => Composite.fieldCount c
  | .bits, b => BitString.fieldCount b

/-! Encoding the written fields like unknown ones gives the encoding of the message. -/

@[simp] theorem UnknownField.encode_ofTag (tag : Tag) (raw : Bytes) :
    (ofTag tag raw).encode = tag.encode ++ raw := rfl

@[simp] theorem UnknownFields.encode_append (fields others : UnknownFields) :
    encode (fields ++ others) = encode fields ++ encode others :=
  List.flatMap_append

theorem Scalar.encode_written (scalar : Scalar) :
    UnknownFields.encode scalar.written = scalar.plain := by
  unfold written plain
  by_cases homitted : scalar.isOmitted
  · rw [if_pos homitted, if_pos homitted, UnknownFields.encode_nil]
  · rw [if_neg homitted, if_neg homitted]
    simp

theorem Value.encode_written (v : Value) : UnknownFields.encode v.written = v.plain := by
  cases v with
  | leaf content unknown =>
      cases content with
      | none => simp [written, plain]
      | some scalar => simp [written, plain, Scalar.encode_written]
  | aggregate values inner unknown =>
      simp [written, plain, Composite.plain, Tag.encodeNested]

theorem Composite.encode_written (c : Composite) : UnknownFields.encode c.written = c.plain := by
  have hvalues (values : List Value) : UnknownFields.encode (values.map fun v =>
      .ofTag elementTag (Varint.encodePrefixed v.plain)) = Value.plainAll values := by
    induction values with
    | nil => rfl
    | cons v values ih => simp [Value.plainAll, ih, Tag.encodeNested]
  rw [written, plain, UnknownFields.encode_append, hvalues]

theorem BitString.encode_written (b : BitString) : UnknownFields.encode b.written = b.plain := by
  unfold written plain
  rw [UnknownFields.encode_append, UnknownFields.encode_append]
  by_cases hdata : b.data.isEmpty <;> by_cases hnbits : b.nbits = 0 <;> simp [hdata, hnbits]

theorem Message.encode_written {s : Schema} (m : Message s) :
    UnknownFields.encode m.written = m.plain := by
  cases s with
  | value => exact Value.encode_written m
  | composite => exact Composite.encode_written m
  | bits => exact BitString.encode_written m

/-! ## Reading them -/

section

variable {field : UnknownField}

theorem UnknownField.wellFormed_ofTag_prefixed {tag : Tag} {content : Bytes}
    (hwire : tag.wireType = .lengthDelimited)
    (hsize : (ofTag tag (Varint.encodePrefixed content)).raw.length < 2 ^ 64) :
    (ofTag tag (Varint.encodePrefixed content)).WellFormed := by
  obtain ⟨number, wireType⟩ := tag
  cases hwire
  simp only [ofTag, Varint.length_encodePrefixed, Varint.prefixedSize] at hsize
  exact ⟨0, .lengthDelimited (Varint.prefixed_encodePrefixed (by omega))⟩

theorem Scalar.spelled_of_mem_written {scalar : Scalar} (h : field ∈ scalar.written)
    (hsize : field.raw.length < 2 ^ 64) : field.tag.Valid ∧ field.WellFormed := by
  unfold written at h
  by_cases homitted : scalar.isOmitted
  · rw [if_pos homitted] at h
    cases h
  · rw [if_neg homitted, List.mem_singleton] at h
    subst h
    cases hnorm : scalar.norm? with
    | none => exact (homitted (norm?_eq_none_iff.mp hnorm)).elim
    | some scalar' =>
        obtain ⟨hcase, hform⟩ := form_payload hnorm hsize
        have hpayload := hform.payload_form
        rw [hcase] at hpayload
        exact ⟨Case.valid_tag _, hpayload⟩

theorem Value.spelled_of_mem_written {v : Value} {left : Nat} (hintact : v.Intact left)
    (h : field ∈ v.written) (hsize : field.raw.length < 2 ^ 64) :
    field.tag.Valid ∧ field.WellFormed := by
  have hunknown := (within_iff.mp hintact).2.2
  cases v with
  | leaf content unknown =>
      rcases List.mem_append.mp h with hknown | hmem
      · cases content with
        | none => cases hknown
        | some scalar => exact Scalar.spelled_of_mem_written hknown hsize
      · exact ⟨(hunknown field hmem).valid, (hunknown field hmem).wellFormed⟩
  | aggregate values inner unknown =>
      rcases List.mem_cons.mp h with rfl | hmem
      · exact ⟨Case.valid_tag .aggregate, UnknownField.wellFormed_ofTag_prefixed rfl hsize⟩
      · exact ⟨(hunknown field hmem).valid, (hunknown field hmem).wellFormed⟩

theorem Composite.spelled_of_mem_written {c : Composite} {left : Nat} (hintact : c.Intact left)
    (h : field ∈ c.written) (hsize : field.raw.length < 2 ^ 64) :
    field.tag.Valid ∧ field.WellFormed := by
  have hunknown := (within_iff.mp hintact).2.2
  rcases List.mem_append.mp h with hvalue | hmem
  · obtain ⟨v, _, rfl⟩ := List.mem_map.mp hvalue
    have hvalid : elementTag.Valid := by decide
    exact ⟨hvalid, UnknownField.wellFormed_ofTag_prefixed rfl hsize⟩
  · exact ⟨(hunknown field hmem).valid, (hunknown field hmem).wellFormed⟩

theorem BitString.spelled_of_mem_written {b : BitString} {left : Nat}
    (hintact : b.unknown.Intact .bits left) (h : field ∈ b.written)
    (hsize : field.raw.length < 2 ^ 64) : field.tag.Valid ∧ field.WellFormed := by
  unfold written at h
  rcases List.mem_append.mp h with hknown | hmem
  · rcases List.mem_append.mp hknown with hdata | hnbits
    · by_cases hempty : b.data.isEmpty
      · simp [hempty] at hdata
      · rw [if_neg hempty, List.mem_singleton] at hdata
        subst hdata
        have hvalid : dataTag.Valid := by decide
        exact ⟨hvalid, UnknownField.wellFormed_ofTag_prefixed rfl hsize⟩
    · by_cases hzero : b.nbits = 0
      · simp [hzero] at hnbits
      · rw [if_neg hzero, List.mem_singleton] at hnbits
        subst hnbits
        have hvalid : nbitsTag.Valid := by decide
        exact ⟨hvalid, 0, .varint (Varint.spelling_encode _)⟩
  · exact ⟨(hintact.2 field hmem).valid, (hintact.2 field hmem).wellFormed⟩

end

namespace Message

variable {s : Schema} {m : Message s}

theorem Intact.spelled_of_mem_written {left : Nat} (hintact : m.Intact left)
    (hsize : m.plain.length < 2 ^ 64) {field : UnknownField} (h : field ∈ m.written) :
    field.tag.Valid ∧ field.WellFormed := by
  have hraw : field.raw.length < 2 ^ 64 := by
    have hheld : (s, field) ∈ m.written.map (Prod.mk s) := List.mem_map_of_mem h
    have hle : field.raw.length ≤ _ := UnknownFields.length_raw_le hheld
    rw [encode_written] at hle
    omega
  cases s with
  | value => exact Value.spelled_of_mem_written hintact h hraw
  | composite => exact Composite.spelled_of_mem_written hintact h hraw
  | bits => exact BitString.spelled_of_mem_written (within_bits_iff.mp hintact) h hraw

end Message

theorem FieldRow.spells_encode {fields : List UnknownField}
    (h : ∀ field ∈ fields, field.tag.Valid ∧ field.WellFormed) :
    Spells (UnknownFields.encode fields) ⟨fields, []⟩ := by
  induction fields with
  | nil => exact .nil []
  | cons field fields ih =>
      obtain ⟨⟨hvalid, hform⟩, hrest⟩ := List.forall_mem_cons.mp h
      rw [UnknownFields.encode_cons, UnknownField.encode, List.append_assoc]
      exact .cons (Tag.spelling_encode hvalid) hform (ih hrest)

namespace Message

variable {s : Schema} {m : Message s}

/-- The row of an encoding is the written fields, and nothing behind them. -/
theorem Intact.covers_plain {left : Nat} (hintact : m.Intact left)
    (hsize : m.plain.length < 2 ^ 64) : FieldRow.Covers ⟨m.written, []⟩ m.plain := by
  have hspells : FieldRow.Spells (UnknownFields.encode m.written) ⟨m.written, []⟩ :=
    FieldRow.spells_encode fun _ => hintact.spelled_of_mem_written hsize
  rw [encode_written] at hspells
  exact ⟨hspells, .inl rfl⟩

end Message

/-! ## Counting them -/

theorem Scalar.length_written (scalar : Scalar) :
    scalar.written.length = scalar.norm?.isSome.toNat := by
  unfold written
  by_cases homitted : scalar.isOmitted
  · rw [if_pos homitted, norm?_eq_none_iff.mpr homitted]
    rfl
  · rw [if_neg homitted]
    cases hnorm : scalar.norm? with
    | none => exact (homitted (norm?_eq_none_iff.mp hnorm)).elim
    | some scalar' => rfl

theorem Value.fieldCount_norm (v : Value) : v.norm.fieldCount = v.written.length := by
  cases v with
  | leaf content unknown =>
      cases content with
      | none => simp [norm, fieldCount, written, isSet, kind?, Value.unknown]
      | some scalar =>
          simp [norm, fieldCount, written, isSet, kind?, Value.unknown, Scalar.length_written]
  | aggregate values inner unknown =>
      simp [norm, fieldCount, written, isSet, kind?, Value.unknown, Nat.add_comm]

theorem Composite.fieldCount_norm (c : Composite) : c.norm.fieldCount = c.written.length := by
  simp [norm, fieldCount, written, Value.normAll_eq_map]

theorem BitString.fieldCount_eq (b : BitString) : b.fieldCount = b.written.length := by
  have hnbits : (b.nbits != 0) = !decide (b.nbits = 0) := rfl
  unfold fieldCount written
  rw [hnbits, List.length_append, List.length_append]
  by_cases hzero : b.nbits = 0 <;> cases b.data.isEmpty <;> simp [hzero]

/-- What an encoding tells of a message has as many fields as are written. -/
theorem Message.fieldCount_norm {s : Schema} (m : Message s) :
    m.norm.fieldCount = m.written.length := by
  cases s with
  | value => exact Value.fieldCount_norm m
  | composite => exact Composite.fieldCount_norm m
  | bits => exact BitString.fieldCount_eq m

/-! A field that is merged adds one at most. -/

section

variable {left : Nat} {tag : Tag} {payload : Bytes}

theorem Value.FieldForm.fieldCount_le {merges : Composite → Bytes → Composite → Prop} {v v' : Value}
    (h : FieldForm left merges tag v payload v') : v'.fieldCount ≤ v.fieldCount + 1 := by
  unfold fieldCount
  cases h with
  | @scalar _ scalar _ _ =>
      have hset : (v.setScalar scalar).isSet.toNat = 1 := rfl
      rw [hset, setScalar, Value.unknown]
      omega
  | @aggregate _ c _ _ _ _ =>
      have hset : (v.setComposite c).isSet.toNat = 1 := rfl
      rw [hset, setComposite, Value.unknown]
      omega
  | unknown _ _ =>
      simp only [addUnknown, isSet, kind?_withUnknown, unknown_withUnknown, List.length_append,
        List.length_singleton]
      omega

theorem Composite.FieldForm.fieldCount_le {merges : Value → Bytes → Value → Prop}
    {c c' : Composite} (h : FieldForm left merges tag c payload c') :
    c'.fieldCount ≤ c.fieldCount + 1 := by
  unfold fieldCount
  cases h with
  | element _ _ _ =>
      simp only [push, List.length_append, List.length_singleton]
      omega
  | unknown _ _ =>
      simp only [addUnknown, List.length_append, List.length_singleton]
      omega

theorem BitString.FieldForm.fieldCount_le {b b' : BitString}
    (h : FieldForm left tag b payload b') : b'.fieldCount ≤ b.fieldCount + 1 := by
  unfold fieldCount
  cases h with
  | @data _ _ data _ =>
      have hle := Bool.toNat_le (!data.isEmpty)
      dsimp only
      omega
  | @nbits _ _ word _ =>
      have hle := Bool.toNat_le (Varint.toInt32 word != 0)
      dsimp only
      omega
  | unknown _ _ =>
      simp only [addUnknown, List.length_append, List.length_singleton]
      omega

end

namespace Message

variable {s : Schema} {left : Nat} {m m' : Message s}

theorem FieldForm.fieldCount_le {tag : Tag} {payload : Bytes}
    (h : FieldForm left tag m payload m') : m'.fieldCount ≤ m.fieldCount + 1 := by
  cases s with
  | value => cases left <;> exact Value.FieldForm.fieldCount_le h
  | composite => cases left <;> exact Composite.FieldForm.fieldCount_le h
  | bits => exact BitString.FieldForm.fieldCount_le h

theorem fieldCount_le_of_makes {fields : List UnknownField}
    (h : Merged.Makes (FieldForm left) m fields m') :
    m'.fieldCount ≤ m.fieldCount + fields.length := by
  induction h with
  | nil m => exact Nat.le_refl _
  | cons hfield _ ih =>
      have hstep := FieldForm.fieldCount_le hfield
      rw [List.length_cons]
      omega

theorem fieldCount_empty (s : Schema) : (empty s).fieldCount = 0 := by
  cases s <;> rfl

end Message

end TestWire
