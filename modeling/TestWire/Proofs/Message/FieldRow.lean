import TestWire.Proofs.Message.Grammar

/-! # Rows of fields

Where the fields of an input begin and end is told by their tags and wire types alone.  So a merge
that succeeds has covered the input by a row of fields, and made its message of them one by one.
-/

namespace TestWire

/-- Fields as they stand at the front of an input, and the bytes behind the last of them. -/
structure FieldRow where
  fields : List UnknownField
  behind : Bytes

namespace FieldRow

/-- The groups in a field open no more levels than it has bytes, so no level limit is met. -/
def take : Nat → Bytes → FieldRow
  | 0, input => ⟨[], input⟩
  | bound + 1, input =>
      match Tag.read input with
      | .ok (some tag) rest =>
          match UnknownField.read bound bound tag rest with
          | .ok field rest =>
              let row := take bound rest
              ⟨field :: row.fields, row.behind⟩
          | .error .. => ⟨[], input⟩
      | _ => ⟨[], input⟩

def ofInput (input : Bytes) : FieldRow :=
  take (input.length + 1) input

/-- The input is the fields of the row, each behind some varint of its tag, and what is behind. -/
inductive Spells : Bytes → FieldRow → Prop
  | nil (behind : Bytes) : Spells behind ⟨[], behind⟩
  | cons {front rest : Bytes} {field : UnknownField} {row : FieldRow}
      (hfront : Tag.Spelling front field.tag) (hform : field.WellFormed) (hrest : Spells rest row) :
      Spells (front ++ (field.raw ++ rest)) ⟨field :: row.fields, row.behind⟩

def Terminated (row : FieldRow) : Prop :=
  ∃ front rest, row.behind = front ++ rest ∧ Tag.Ends front

/-- The row holds all fields of the input, up to its end or to a tag that ends them early. -/
structure Covers (row : FieldRow) (input : Bytes) : Prop where
  spells : Spells input row
  ended : row.behind = [] ∨ row.Terminated

theorem Spells.length_raw_le {input : Bytes} {row : FieldRow} (h : Spells input row)
    {field : UnknownField} (hmem : field ∈ row.fields) : field.raw.length ≤ input.length := by
  induction h with
  | nil behind => cases hmem
  | cons _ _ _ ih =>
      simp only [List.length_append]
      rcases List.mem_cons.mp hmem with rfl | hmem
      · omega
      · have hle := ih hmem
        omega

theorem Spells.append {input : Bytes} {row : FieldRow} (h : Spells input row) (more : Bytes) :
    Spells (input ++ more) ⟨row.fields, row.behind ++ more⟩ := by
  induction h with
  | nil behind => exact .nil _
  | cons hfront hform _ ih =>
      rw [List.append_assoc, List.append_assoc]
      exact .cons hfront hform ih

theorem Spells.trans {input : Bytes} {row next : FieldRow} (h : Spells input row)
    (hnext : Spells row.behind next) : Spells input ⟨row.fields ++ next.fields, next.behind⟩ := by
  induction h with
  | nil behind => exact hnext
  | cons hfront hform _ ih => exact .cons hfront hform (ih hnext)

theorem Spells.fields_ne_nil {input : Bytes} {row : FieldRow} (h : Spells input row)
    (hbehind : row.behind = []) (hinput : input ≠ []) : row.fields ≠ [] := by
  cases h with
  | nil behind => exact (hinput hbehind).elim
  | cons _ _ _ => exact List.cons_ne_nil _ _

/-! ## Splitting -/

theorem take_succ_of_spelling {bound : Nat} {front rest : Bytes} {field : UnknownField}
    (hfront : Tag.Spelling front field.tag) (hform : field.WellFormed)
    (hbound : field.raw.length ≤ bound) :
    take (bound + 1) (front ++ (field.raw ++ rest)) =
      ⟨field :: (take bound rest).fields, (take bound rest).behind⟩ := by
  obtain ⟨depth, hpayload⟩ := hform
  have hnesting : field.nesting ≤ bound := by
    rw [UnknownField.nesting_eq_of_form hpayload]
    exact Nat.le_trans hpayload.depth_le_length hbound
  have hread : UnknownField.read bound bound field.tag (field.raw ++ rest) = .ok field rest :=
    (UnknownField.read_reads bound bound field.tag).ok_append
      ⟨rfl, rfl, ⟨depth, hpayload⟩, hnesting⟩ rest
  rw [take, hfront.read_append]
  simp only [hread]

theorem take_of_ended {row : FieldRow} (h : row.behind = [] ∨ row.Terminated) (bound : Nat) :
    take bound row.behind = ⟨[], row.behind⟩ := by
  cases bound with
  | zero => rfl
  | succ bound =>
      rcases h with hnil | ⟨front, rest, hbehind, hzero | ⟨number, hend⟩⟩
      · rw [hnil]
        rfl
      · rw [hbehind, take, Tag.read_reads.ok_append (a := none) hzero]
      · rw [hbehind, take, hend.read_append]
        cases hread : UnknownField.read bound bound ⟨number, .endGroup⟩ rest with
        | error error after => simp only [hread]
        | ok field after =>
            obtain ⟨_, _, htag, _, ⟨depth, hform⟩, _⟩ :=
              (UnknownField.read_reads _ _ _ _ _ _).mp hread
            rw [htag] at hform
            exact (hform.wireType_ne_endGroup rfl).elim

theorem Covers.take_eq {row : FieldRow} {input : Bytes} (h : row.Covers input) {bound : Nat}
    (hbound : input.length < bound) : take bound input = row := by
  obtain ⟨hspells, hended⟩ := h
  induction hspells generalizing bound with
  | nil behind => exact take_of_ended hended bound
  | @cons front rest field row hfront hform _ ih =>
      have hpos := hfront.length_pos
      simp only [List.length_append] at hbound
      obtain ⟨bound, rfl⟩ := Nat.exists_eq_add_one.mpr (show 0 < bound by omega)
      rw [take_succ_of_spelling hfront hform (by omega), ih (by omega) hended]

theorem Covers.ofInput_eq {row : FieldRow} {input : Bytes} (h : row.Covers input) :
    ofInput input = row :=
  h.take_eq (Nat.lt_succ_self input.length)

end FieldRow

/-! ## Fields that make a message -/

namespace Merged

variable {μ : Type} {form : Tag → μ → Bytes → μ → Prop}

/-- What the fields of a row make of a message, one after the other. -/
inductive Makes (form : Tag → μ → Bytes → μ → Prop) : μ → List UnknownField → μ → Prop
  | nil (m : μ) : Makes form m [] m
  | cons {field : UnknownField} {fields : List UnknownField} {m m' m'' : μ}
      (hfield : form field.tag m field.raw m') (hrest : Makes form m' fields m'') :
      Makes form m (field :: fields) m''

/-- A region that is merged is covered by its row of fields, and these make the message. -/
theorem Fields.covers_and_makes
    (hform : ∀ tag m payload m', form tag m payload m' → ∃ depth, Payload.Form tag payload depth)
    {m m' : μ} {input : Bytes} (h : Fields form m input m') :
    (FieldRow.ofInput input).Covers input ∧ Makes form m (FieldRow.ofInput input).fields m' := by
  have hrow : ∃ row : FieldRow, row.Covers input ∧ Makes form m row.fields m' := by
    induction h with
    | done m => exact ⟨⟨[], []⟩, ⟨.nil [], .inl rfl⟩, .nil m⟩
    | @ended m front rest hfront =>
        exact ⟨⟨[], front ++ rest⟩, ⟨.nil _, .inr ⟨front, rest, rfl, hfront⟩⟩, .nil m⟩
    | @field tag front payload rest m m' m'' hfront _ hpayload _ ih =>
        obtain ⟨row, ⟨hspells, hended⟩, hmakes⟩ := ih
        let field : UnknownField := ⟨tag.number, tag.wireType, payload⟩
        have hwell : field.WellFormed := hform tag m payload m' hpayload
        have hcons : FieldRow.Spells (front ++ (field.raw ++ rest))
            ⟨field :: row.fields, row.behind⟩ := .cons hfront hwell hspells
        have hstep : form field.tag m field.raw m' := hpayload
        exact ⟨⟨field :: row.fields, row.behind⟩, ⟨hcons, hended⟩, .cons hstep hmakes⟩
  obtain ⟨row, hcovers, hmakes⟩ := hrow
  rw [hcovers.ofInput_eq]
  exact ⟨hcovers, hmakes⟩

end Merged

/-! ## Fields of messages -/

/-- What one field makes of a message, when `left` levels are left for what nests in it. -/
def Message.FieldForm (left : Nat) : {s : Schema} → Tag → Message s → Bytes → Message s → Prop
  | .value =>
      match left with
      | 0 => Value.FieldForm 0 fun _ _ _ => False
      | deeper + 1 => Value.FieldForm (deeper + 1) (Composite.Merges deeper)
  | .composite =>
      match left with
      | 0 => Composite.FieldForm 0 fun _ _ _ => False
      | deeper + 1 => Composite.FieldForm (deeper + 1) (Value.Merges deeper)
  | .bits => BitString.FieldForm left

theorem Scalar.Form.payload_form {scalar : Scalar} {payload : Bytes} (h : Form payload scalar) :
    ∃ depth, Payload.Form scalar.case.tag payload depth := by
  cases scalar with
  | octets data => exact ⟨0, .lengthDelimited h⟩
  | boolean value =>
      obtain ⟨word, hword, _⟩ := h
      exact ⟨0, .varint hword⟩
  | verdict v =>
      obtain ⟨word, hword, _⟩ := h
      exact ⟨0, .varint hword⟩
  | text content => exact ⟨0, .lengthDelimited h⟩
  | real value => exact ⟨0, .fixed64 h.1⟩
  | integer value =>
      obtain ⟨word, hword, _⟩ := h
      exact ⟨0, .varint hword⟩
  | bigNumber literal => exact ⟨0, .lengthDelimited h⟩

section

variable {left : Nat} {tag : Tag} {payload : Bytes}

theorem Value.FieldForm.payload_form {merges : Composite → Bytes → Composite → Prop} {v v' : Value}
    (h : FieldForm left merges tag v payload v') : ∃ depth, Payload.Form tag payload depth := by
  cases h with
  | scalar _ hform => exact hform.payload_form
  | aggregate _ hprefixed _ => exact ⟨0, .lengthDelimited hprefixed⟩
  | unknown _ hfield => exact hfield.wellFormed

theorem Composite.FieldForm.payload_form {merges : Value → Bytes → Value → Prop}
    {c c' : Composite} (h : FieldForm left merges tag c payload c') :
    ∃ depth, Payload.Form tag payload depth := by
  cases h with
  | element _ hprefixed _ => exact ⟨0, .lengthDelimited hprefixed⟩
  | unknown _ hfield => exact hfield.wellFormed

theorem BitString.FieldForm.payload_form {b b' : BitString}
    (h : FieldForm left tag b payload b') : ∃ depth, Payload.Form tag payload depth := by
  cases h with
  | data _ hprefixed => exact ⟨0, .lengthDelimited hprefixed⟩
  | nbits _ hword => exact ⟨0, .varint hword⟩
  | unknown _ hfield => exact hfield.wellFormed

end

namespace Message

variable {s : Schema} {m m' : Message s}

/-- Whatever a field makes of a message, its bytes are a payload of its wire type. -/
theorem FieldForm.payload_form {left : Nat} {tag : Tag} {payload : Bytes}
    (h : FieldForm left tag m payload m') : ∃ depth, Payload.Form tag payload depth := by
  cases s with
  | value => cases left <;> exact Value.FieldForm.payload_form h
  | composite => cases left <;> exact Composite.FieldForm.payload_form h
  | bits => exact BitString.FieldForm.payload_form h

theorem merges_iff_fields {left : Nat} {input : Bytes} :
    Merges left m input m' ↔ Merged.Fields (FieldForm left) m input m' := by
  cases s with
  | value => cases left <;> exact Iff.rfl
  | composite => cases left <;> exact Iff.rfl
  | bits => exact Iff.rfl

theorem Merges.covers_and_makes {left : Nat} {input : Bytes} (h : Merges left m input m') :
    (FieldRow.ofInput input).Covers input ∧
      Merged.Makes (FieldForm left) m (FieldRow.ofInput input).fields m' :=
  (merges_iff_fields.mp h).covers_and_makes fun _ _ _ _ hform => hform.payload_form

theorem merge_ok_iff {limits : DecodeLimits} {input : Bytes} :
    merge limits m input = ⟨m', .ok ()⟩ ↔
      input.length ≤ limits.maxSize ∧ Merges limits.maxDepth m input m' := by
  rw [← mergeInput_eq_ok_iff]
  unfold merge
  by_cases hlarge : limits.maxSize < input.length
  · rw [if_pos hlarge]
    simp only [Merged.mk.injEq, reduceCtorEq, and_false, false_iff, not_and]
    omega
  · rw [if_neg hlarge]
    simp only [Nat.le_of_not_lt hlarge, true_and]

def mergeField (max left : Nat) : {s : Schema} → Merged.Step (Message s)
  | .value =>
      Value.mergeField max left <|
        match left with
        | 0 => none
        | deeper + 1 => some (Composite.merge max deeper)
  | .composite =>
      Composite.mergeField max left <|
        match left with
        | 0 => none
        | deeper + 1 => some (Value.merge max deeper)
  | .bits => BitString.mergeField max left

theorem merge_value_eq_region (max left : Nat) :
    Value.merge max left = Merged.region (mergeField max left (s := .value)) := by
  cases left <;> rfl

theorem merge_composite_eq_region (max left : Nat) :
    Composite.merge max left = Merged.region (mergeField max left (s := .composite)) := by
  cases left <;> rfl

theorem mergeInput_eq_region {max : Nat} :
    (mergeInput max : Merged.Region (Message s)) = Merged.region (mergeField max max) := by
  cases s with
  | value => exact merge_value_eq_region max max
  | composite => exact merge_composite_eq_region max max
  | bits => rfl

theorem mergeField_takes (s : Schema) (max left : Nat) :
    Merged.Takes (mergeField max left) (FieldForm left (s := s)) := by
  cases s with
  | value =>
      cases left with
      | zero => exact Value.mergeField_takes max 0 (by simp)
      | succ left =>
          exact Value.mergeField_takes max _ (by simpa using (merge_eq_ok_iff max left).2)
  | composite =>
      cases left with
      | zero =>
          have htakes : Merged.Takes (Composite.mergeField max 0 none)
              (Composite.FieldForm 0 fun _ _ _ => False) :=
            Composite.mergeField_takes max 0 (by simp)
          exact htakes
      | succ left =>
          exact Composite.mergeField_takes max _ (by simpa using (merge_eq_ok_iff max left).1)
  | bits => exact BitString.mergeField_takes max left

end Message

/-! ## Unknown fields of a row -/

section

variable {left : Nat} {tag : Tag} {payload : Bytes}

theorem Value.FieldForm.unknown_eq {merges : Composite → Bytes → Composite → Prop} {v v' : Value}
    (h : FieldForm left merges tag v payload v') :
    v'.unknown = v.unknown ++
      if Schema.value.knows tag then [] else [⟨tag.number, tag.wireType, payload⟩] := by
  cases h with
  | scalar _ _ => simp [Schema.knows, setScalar, Value.unknown]
  | aggregate _ _ _ => simp [Schema.knows, setComposite, Value.unknown]
  | unknown _ hfield =>
      rw [hfield.unknown, addUnknown, unknown_withUnknown]
      rfl

theorem Composite.FieldForm.unknown_eq {merges : Value → Bytes → Value → Prop} {c c' : Composite}
    (h : FieldForm left merges tag c payload c') :
    c'.unknown = c.unknown ++
      if Schema.composite.knows tag then [] else [⟨tag.number, tag.wireType, payload⟩] := by
  cases h with
  | element _ _ _ => simp [Schema.knows, push]
  | unknown _ hfield =>
      rw [hfield.unknown]
      rfl

theorem BitString.FieldForm.unknown_eq {b b' : BitString} (h : FieldForm left tag b payload b') :
    b'.unknown = b.unknown ++
      if Schema.bits.knows tag then [] else [⟨tag.number, tag.wireType, payload⟩] := by
  cases h with
  | data _ _ => simp [Schema.knows]
  | nbits _ _ => simp [Schema.knows]
  | unknown _ hfield =>
      rw [hfield.unknown]
      rfl

end

namespace Message

variable {s : Schema} {m m' : Message s}

/-- A field that the schema does not know is added to the unknown fields, any other leaves them. -/
theorem FieldForm.unknown_eq {left : Nat} {tag : Tag} {payload : Bytes}
    (h : FieldForm left tag m payload m') :
    m'.unknown = m.unknown ++
      if s.knows tag then [] else [⟨tag.number, tag.wireType, payload⟩] := by
  cases s with
  | value => cases left <;> exact Value.FieldForm.unknown_eq h
  | composite => cases left <;> exact Composite.FieldForm.unknown_eq h
  | bits => exact BitString.FieldForm.unknown_eq h

theorem unknown_of_makes {left : Nat} {fields : List UnknownField}
    (h : Merged.Makes (FieldForm left) m fields m') :
    m'.unknown = m.unknown ++ fields.filter fun field => !s.knows field.tag := by
  induction h with
  | nil m => simp
  | @cons field fields m m₁ m' hfield _ ih =>
      have hstep : m₁.unknown = m.unknown ++ if s.knows field.tag then [] else [field] :=
        FieldForm.unknown_eq hfield
      rw [ih, hstep, List.append_assoc]
      by_cases hknown : s.knows field.tag
      · simp [hknown]
      · simp [hknown]

end Message

end TestWire
