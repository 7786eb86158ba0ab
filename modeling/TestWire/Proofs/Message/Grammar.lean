import TestWire.Proofs.Message.Fields
import TestWire.Proofs.Wire.UnknownField

/-! # What decodes

`Message.Merges left m input m'` says that the input consists of fields nested within `left` levels
that make `m'` of `m`.  Merging succeeds on exactly these inputs, with exactly this result.
-/

namespace TestWire

/-! ## Scalars -/

/-- The payloads that are read as a scalar. -/
def Scalar.Form (payload : Bytes) : Scalar → Prop
  | octets data => Varint.Prefixed payload data
  | boolean value =>
      ∃ word : UInt64, Varint.Spelling Limits.maxVarintBytes payload word.toNat ∧
        value = (word != 0)
  | verdict v =>
      ∃ word : UInt64, Varint.Spelling Limits.maxVarintBytes payload word.toNat ∧
        v = .ofOrdinal (Varint.toInt32 word)
  | text content => Varint.Prefixed payload (Bytes.ofString content)
  | real value => payload.length = 8 ∧ value = ⟨UInt64.ofNat payload.toNatLE⟩
  | integer value =>
      ∃ word : UInt64, Varint.Spelling Limits.maxVarintBytes payload word.toNat ∧
        value = Varint.toInt32 word
  | bigNumber literal => Varint.Prefixed payload (Bytes.ofString literal)

theorem Scalar.case_ne_aggregate (scalar : Scalar) : scalar.case ≠ .aggregate := by
  cases scalar <;> simp [case]

theorem Scalar.reader?_eq_none_iff {c : Case} : reader? c = none ↔ c = .aggregate := by
  cases c <;> simp [reader?]

theorem Scalar.reader?_reads {c : Case} {read : Reader Scalar} (h : reader? c = some read) :
    read.Reads fun payload scalar => scalar.case = c ∧ Form payload scalar := by
  cases c with
  | octets =>
      cases h
      refine ((Reader.prefixed_reads _).map octets).congr fun payload scalar => ?_
      cases scalar <;> simp [case, Form]
  | boolean =>
      cases h
      refine ((Reader.varint_reads _).map fun word => boolean (word != 0)).congr
        fun payload scalar => ?_
      cases scalar <;> simp [case, Form]
  | verdict =>
      cases h
      refine ((Reader.int32_reads _).map fun n => verdict (.ofOrdinal n)).congr
        fun payload scalar => ?_
      cases scalar <;> grind [case, Form]
  | text =>
      cases h
      refine ((Reader.text_reads _).map text).congr fun payload scalar => ?_
      cases scalar <;> simp [case, Form]
  | real =>
      cases h
      refine ((Reader.fixed64_reads _).map fun word => real ⟨word⟩).congr
        fun payload scalar => ?_
      cases scalar <;> grind [case, Form]
  | integer =>
      cases h
      refine ((Reader.int32_reads _).map integer).congr fun payload scalar => ?_
      cases scalar <;> simp [case, Form]
  | bigNumber =>
      cases h
      refine ((Reader.text_reads _).map bigNumber).congr fun payload scalar => ?_
      cases scalar <;> simp [case, Form]
  | aggregate => cases h

/-- What holds of the readers of scalars, as it holds of the few readers they are made of. -/
theorem Scalar.reader?_induction {motive : ∀ {α : Type}, Reader α → Prop}
    (map : ∀ {α β : Type} {read : Reader α} (f : α → β), motive read → motive (f <$> read))
    (prefixed : ∀ field, motive (Reader.prefixed field))
    (varint : ∀ field, motive (Reader.varint field)) (int32 : ∀ field, motive (Reader.int32 field))
    (text : ∀ field, motive (Reader.text field)) (fixed64 : ∀ field, motive (Reader.fixed64 field))
    {c : Case} {read : Reader Scalar} (h : reader? c = some read) : motive read := by
  cases c with
  | octets =>
      cases h
      exact map _ (prefixed _)
  | boolean =>
      cases h
      exact map _ (varint _)
  | verdict =>
      cases h
      exact map _ (int32 _)
  | text =>
      cases h
      exact map _ (text _)
  | real =>
      cases h
      exact map _ (fixed64 _)
  | integer =>
      cases h
      exact map _ (int32 _)
  | bigNumber =>
      cases h
      exact map _ (text _)
  | aggregate => cases h

/-! ## Fields -/

/-- An unknown field of a message of this type, read within some levels. -/
structure Schema.Keeps (s : Schema) (left : Nat) (field : UnknownField) : Prop where
  unknown : s.knows field.tag = false
  wellFormed : field.WellFormed
  nesting_le : field.nesting ≤ left

theorem Schema.Keeps.mono {s : Schema} {left left' : Nat} {field : UnknownField}
    (h : s.Keeps left field) (hle : left ≤ left') : s.Keeps left' field :=
  ⟨h.unknown, h.wellFormed, Nat.le_trans h.nesting_le hle⟩

/-- What one field makes of a value; an aggregate merges into the one that is there, if any. -/
inductive Value.FieldForm (left : Nat) (merges : Composite → Bytes → Composite → Prop) :
    Tag → Value → Bytes → Value → Prop
  | scalar (v : Value) {scalar : Scalar} {payload : Bytes} (hform : Scalar.Form payload scalar) :
      FieldForm left merges scalar.case.tag v payload (v.setScalar scalar)
  | aggregate (v : Value) {c : Composite} {payload body : Bytes}
      (hprefixed : Varint.Prefixed payload body) (hbody : merges (v.composite?.getD {}) body c) :
      FieldForm left merges Case.aggregate.tag v payload (v.setComposite c)
  | unknown (v : Value) {field : UnknownField} (hfield : Schema.value.Keeps left field) :
      FieldForm left merges field.tag v field.raw (v.addUnknown field)

inductive Composite.FieldForm (left : Nat) (merges : Value → Bytes → Value → Prop) :
    Tag → Composite → Bytes → Composite → Prop
  | element (c : Composite) {v : Value} {payload body : Bytes}
      (hprefixed : Varint.Prefixed payload body) (hbody : merges .unset body v) :
      FieldForm left merges elementTag c payload (c.push v)
  | unknown (c : Composite) {field : UnknownField} (hfield : Schema.composite.Keeps left field) :
      FieldForm left merges field.tag c field.raw (c.addUnknown field)

inductive BitString.FieldForm (left : Nat) : Tag → BitString → Bytes → BitString → Prop
  | data (b : BitString) {payload data : Bytes} (hprefixed : Varint.Prefixed payload data) :
      FieldForm left dataTag b payload { b with data := data }
  | nbits (b : BitString) {payload : Bytes} {word : UInt64}
      (hword : Varint.Spelling Limits.maxVarintBytes payload word.toNat) :
      FieldForm left nbitsTag b payload { b with nbits := Varint.toInt32 word }
  | unknown (b : BitString) {field : UnknownField} (hfield : Schema.bits.Keeps left field) :
      FieldForm left field.tag b field.raw (b.addUnknown field)

mutual

def Value.Merges : Nat → Value → Bytes → Value → Prop
  | 0 => Merged.Fields (Value.FieldForm 0 fun _ _ _ => False)
  | left + 1 => Merged.Fields (Value.FieldForm (left + 1) (Composite.Merges left))

def Composite.Merges : Nat → Composite → Bytes → Composite → Prop
  | 0 => Merged.Fields (Composite.FieldForm 0 fun _ _ _ => False)
  | left + 1 => Merged.Fields (Composite.FieldForm (left + 1) (Value.Merges left))

end

def BitString.Merges (left : Nat) : BitString → Bytes → BitString → Prop :=
  Merged.Fields (BitString.FieldForm left)

/-- The fields of a message make another message of it, nested within `left` levels. -/
def Message.Merges (left : Nat) : {s : Schema} → Message s → Bytes → Message s → Prop
  | .value => Value.Merges left
  | .composite => Composite.Merges left
  | .bits => BitString.Merges left

/--
What holds of merging a value or a composite, as soon as it holds of the regions merged one level
below, holds at all levels.
-/
theorem Message.merges_induction {onValue : Nat → Value → Bytes → Value → Prop}
    {onComposite : Nat → Composite → Bytes → Composite → Prop}
    (value : ∀ left (merges : Composite → Bytes → Composite → Prop),
      (∀ c body c', merges c body c' → ∃ deeper, left = deeper + 1 ∧ onComposite deeper c body c') →
      ∀ v input v', Merged.Fields (Value.FieldForm left merges) v input v' →
        onValue left v input v')
    (composite : ∀ left (merges : Value → Bytes → Value → Prop),
      (∀ v body v', merges v body v' → ∃ deeper, left = deeper + 1 ∧ onValue deeper v body v') →
      ∀ c input c', Merged.Fields (Composite.FieldForm left merges) c input c' →
        onComposite left c input c')
    (left : Nat) :
    (∀ v input v', Value.Merges left v input v' → onValue left v input v') ∧
    ∀ c input c', Composite.Merges left c input c' → onComposite left c input c' := by
  induction left with
  | zero =>
      constructor
      · exact value 0 _ fun _ _ _ hfalse => hfalse.elim
      · exact composite 0 _ fun _ _ _ hfalse => hfalse.elim
  | succ left ih =>
      constructor
      · exact value (left + 1) _ fun c body c' hbody => ⟨left, rfl, ih.2 c body c' hbody⟩
      · exact composite (left + 1) _ fun v body v' hbody => ⟨left, rfl, ih.1 v body v' hbody⟩

/-! ## Levels -/

theorem Value.FieldForm.mono {left left' : Nat}
    {merges merges' : Composite → Bytes → Composite → Prop} (hle : left ≤ left')
    (hmerges : ∀ c body c', merges c body c' → merges' c body c') {tag : Tag}
    {v v' : Value} {payload : Bytes} (h : FieldForm left merges tag v payload v') :
    FieldForm left' merges' tag v payload v' := by
  cases h with
  | scalar _ hform => exact .scalar v hform
  | aggregate _ hprefixed hbody => exact .aggregate v hprefixed (hmerges _ _ _ hbody)
  | unknown _ hfield => exact .unknown v (hfield.mono hle)

theorem Composite.FieldForm.mono {left left' : Nat} {merges merges' : Value → Bytes → Value → Prop}
    (hle : left ≤ left') (hmerges : ∀ v body v', merges v body v' → merges' v body v') {tag : Tag}
    {c c' : Composite} {payload : Bytes} (h : FieldForm left merges tag c payload c') :
    FieldForm left' merges' tag c payload c' := by
  cases h with
  | element _ hprefixed hbody => exact .element c hprefixed (hmerges _ _ _ hbody)
  | unknown _ hfield => exact .unknown c (hfield.mono hle)

theorem BitString.FieldForm.mono {left left' : Nat} (hle : left ≤ left') {tag : Tag}
    {b b' : BitString} {payload : Bytes} (h : FieldForm left tag b payload b') :
    FieldForm left' tag b payload b' := by
  cases h with
  | data _ hprefixed => exact .data b hprefixed
  | nbits _ hword => exact .nbits b hword
  | unknown _ hfield => exact .unknown b (hfield.mono hle)

theorem Message.merges_succ (left : Nat) :
    (∀ v input v', Value.Merges left v input v' → Value.Merges (left + 1) v input v') ∧
    ∀ c input c', Composite.Merges left c input c' → Composite.Merges (left + 1) c input c' := by
  apply merges_induction
  · intro left merges hmerges v input v' h
    refine h.mono fun _ _ _ _ => .mono (Nat.le_succ left) fun c body c' hbody => ?_
    rcases hmerges c body c' hbody with ⟨deeper, rfl, hdeeper⟩
    exact hdeeper
  · intro left merges hmerges c input c' h
    refine h.mono fun _ _ _ _ => .mono (Nat.le_succ left) fun v body v' hbody => ?_
    rcases hmerges v body v' hbody with ⟨deeper, rfl, hdeeper⟩
    exact hdeeper

theorem Message.Merges.mono {s : Schema} {left left' : Nat} {m m' : Message s} {input : Bytes}
    (hle : left ≤ left') (h : Merges left m input m') : Merges left' m input m' := by
  induction hle with
  | refl => exact h
  | step hle ih =>
      cases s with
      | value => exact (merges_succ _).1 _ _ _ ih
      | composite => exact (merges_succ _).2 _ _ _ ih
      | bits => exact Merged.Fields.mono (fun _ _ _ _ => .mono (Nat.le_succ _)) ih

/-! ## Merging -/

section

variable {left : Nat} {merges : Composite → Bytes → Composite → Prop} {v v' : Value}
  {payload : Bytes}

theorem Value.fieldForm_unknown_iff {tag : Tag} (hunknown : Case.ofTag? tag = none) :
    FieldForm left merges tag v payload v' ↔
      ∃ field, (field.tag = tag ∧ field.raw = payload ∧ field.WellFormed ∧ field.nesting ≤ left) ∧
        v' = v.addUnknown field := by
  constructor
  · intro h
    cases h with
    | scalar => simp at hunknown
    | aggregate => simp at hunknown
    | unknown _ hfield => exact ⟨_, ⟨rfl, rfl, hfield.wellFormed, hfield.nesting_le⟩, rfl⟩
  · intro h
    rcases h with ⟨field, ⟨rfl, rfl, hform, hnesting⟩, rfl⟩
    exact .unknown v ⟨by simp [Schema.knows, hunknown], hform, hnesting⟩

theorem Value.fieldForm_scalar_iff {c : Case} (hscalar : c ≠ .aggregate) :
    FieldForm left merges c.tag v payload v' ↔
      ∃ scalar, (scalar.case = c ∧ Scalar.Form payload scalar) ∧ v' = v.setScalar scalar := by
  constructor
  · intro h
    generalize htag : c.tag = tag at h
    cases h with
    | scalar _ hform => exact ⟨_, ⟨(Case.tag_inj.mp htag).symm, hform⟩, rfl⟩
    | aggregate => exact (hscalar (Case.tag_inj.mp htag)).elim
    | unknown _ hfield =>
        have hunknown := hfield.unknown
        simp [← htag, Schema.knows] at hunknown
  · intro h
    rcases h with ⟨scalar, ⟨rfl, hform⟩, rfl⟩
    exact .scalar v hform

theorem Value.fieldForm_aggregate_iff :
    FieldForm left merges Case.aggregate.tag v payload v' ↔
      ∃ c, (∃ body, Varint.Prefixed payload body ∧ merges (v.composite?.getD {}) body c) ∧
        v' = v.setComposite c := by
  constructor
  · intro h
    generalize htag : Case.aggregate.tag = tag at h
    cases h with
    | scalar => exact (Scalar.case_ne_aggregate _ (Case.tag_inj.mp htag).symm).elim
    | aggregate _ hprefixed hbody => exact ⟨_, ⟨_, hprefixed, hbody⟩, rfl⟩
    | unknown _ hfield =>
        have hunknown := hfield.unknown
        simp [← htag, Schema.knows] at hunknown
  · intro h
    rcases h with ⟨c, ⟨body, hprefixed, hbody⟩, rfl⟩
    exact .aggregate v hprefixed hbody

end

theorem Value.mergeAggregate_eq_ok_iff {max : Nat} {deeper : Option (Merged.Region Composite)}
    {v v' : Value} {input rest : Bytes} :
    mergeAggregate max deeper v input = ⟨v', .ok rest⟩ ↔
      ∃ c, Merged.nested max Schema.composite.name deeper (v.composite?.getD {}) input =
          ⟨c, .ok rest⟩ ∧ v' = v.setComposite c := by
  unfold mergeAggregate
  cases v.composite? with
  | some active =>
      dsimp only [Option.getD_some]
      generalize Merged.nested max Schema.composite.name deeper active input = merged
      rcases merged with ⟨c, outcome⟩
      cases outcome <;> grind
  | none =>
      dsimp only [Option.getD_none]
      generalize Merged.nested max Schema.composite.name deeper {} input = merged
      rcases merged with ⟨c, outcome⟩
      cases outcome <;> grind

/-- Whether an aggregate goes into an active one or a new one, it fails as its region does. -/
theorem Value.outcome_mergeAggregate (max : Nat) (deeper : Option (Merged.Region Composite))
    (v : Value) (input : Bytes) :
    (mergeAggregate max deeper v input).outcome =
      (Merged.nested max Schema.composite.name deeper (v.composite?.getD {}) input).outcome := by
  unfold mergeAggregate
  cases v.composite? with
  | some active => rfl
  | none =>
      dsimp only [Option.getD_none]
      generalize Merged.nested max Schema.composite.name deeper {} input = merged
      rcases merged with ⟨c, outcome⟩
      cases outcome <;> rfl

theorem Value.mergeField_takes (max left : Nat) {deeper : Option (Merged.Region Composite)}
    {merges : Composite → Bytes → Composite → Prop}
    (h : ∀ c body c', (∃ merge ∈ deeper, merge c body = ⟨c', .ok ()⟩) ↔ merges c body c') :
    Merged.Takes (mergeField max left deeper) (FieldForm left merges) := by
  intro tag v input v' rest
  unfold mergeField
  cases hcase : Case.ofTag? tag with
  | none =>
      simp only [fieldForm_unknown_iff hcase]
      exact Merged.field_eq_ok_iff (UnknownField.read_reads max left tag)
  | some c =>
      obtain rfl := Case.ofTag?_eq_some_iff.mp hcase
      cases hread : Scalar.reader? c with
      | none =>
          obtain rfl := Scalar.reader?_eq_none_iff.mp hread
          simp only [fieldForm_aggregate_iff, hread, mergeAggregate_eq_ok_iff,
            Merged.nested_eq_ok_iff h]
          grind
      | some read =>
          have hscalar : c ≠ .aggregate := by
            intro haggregate
            rw [Scalar.reader?_eq_none_iff.mpr haggregate] at hread
            cases hread
          simp only [fieldForm_scalar_iff hscalar, hread]
          exact Merged.field_eq_ok_iff (Scalar.reader?_reads hread)

theorem Composite.fieldForm_element_iff {left : Nat} {merges : Value → Bytes → Value → Prop}
    {c c' : Composite} {payload : Bytes} :
    FieldForm left merges elementTag c payload c' ↔
      ∃ v, (∃ body, Varint.Prefixed payload body ∧ merges .unset body v) ∧ c' = c.push v := by
  constructor
  · intro h
    generalize htag : elementTag = tag at h
    cases h with
    | element _ hprefixed hbody => exact ⟨_, ⟨_, hprefixed, hbody⟩, rfl⟩
    | unknown _ hfield =>
        have hunknown := hfield.unknown
        simp [← htag, Schema.knows] at hunknown
  · intro h
    rcases h with ⟨v, ⟨body, hprefixed, hbody⟩, rfl⟩
    exact .element c hprefixed hbody

theorem Composite.fieldForm_unknown_iff {left : Nat} {merges : Value → Bytes → Value → Prop}
    {tag : Tag} {c c' : Composite} {payload : Bytes} (hunknown : tag ≠ elementTag) :
    FieldForm left merges tag c payload c' ↔
      ∃ field, (field.tag = tag ∧ field.raw = payload ∧ field.WellFormed ∧ field.nesting ≤ left) ∧
        c' = c.addUnknown field := by
  constructor
  · intro h
    cases h with
    | element => exact (hunknown rfl).elim
    | unknown _ hfield => exact ⟨_, ⟨rfl, rfl, hfield.wellFormed, hfield.nesting_le⟩, rfl⟩
  · intro h
    rcases h with ⟨field, ⟨rfl, rfl, hform, hnesting⟩, rfl⟩
    exact .unknown c ⟨by simpa [Schema.knows] using hunknown, hform, hnesting⟩

theorem Composite.mergeField_element_eq_ok_iff {max left : Nat}
    {deeper : Option (Merged.Region Value)} {c c' : Composite} {input rest : Bytes} :
    mergeField max left deeper elementTag c input = ⟨c', .ok rest⟩ ↔
      ∃ v, Merged.nested max Schema.value.name deeper .unset input = ⟨v, .ok rest⟩ ∧
        c' = c.push v := by
  unfold mergeField
  rw [if_pos rfl]
  generalize Merged.nested max Schema.value.name deeper .unset input = merged
  rcases merged with ⟨v, outcome⟩
  cases outcome <;> grind

theorem Composite.outcome_mergeField_element (max left : Nat)
    (deeper : Option (Merged.Region Value)) (c : Composite) (input : Bytes) :
    (mergeField max left deeper elementTag c input).outcome =
      (Merged.nested max Schema.value.name deeper .unset input).outcome := by
  unfold mergeField
  rw [if_pos rfl]
  generalize Merged.nested max Schema.value.name deeper .unset input = merged
  rcases merged with ⟨v, outcome⟩
  cases outcome <;> rfl

theorem Composite.mergeField_takes (max left : Nat) {deeper : Option (Merged.Region Value)}
    {merges : Value → Bytes → Value → Prop}
    (h : ∀ v body v', (∃ merge ∈ deeper, merge v body = ⟨v', .ok ()⟩) ↔ merges v body v') :
    Merged.Takes (mergeField max left deeper) (FieldForm left merges) := by
  intro tag c input c' rest
  by_cases htag : tag = elementTag
  · cases htag
    simp only [fieldForm_element_iff, mergeField_element_eq_ok_iff, Merged.nested_eq_ok_iff h]
    grind
  · simp only [mergeField, if_neg htag, fieldForm_unknown_iff htag]
    exact Merged.field_eq_ok_iff (UnknownField.read_reads max left tag)

section

variable {left : Nat} {b b' : BitString} {payload : Bytes}

theorem BitString.fieldForm_data_iff :
    FieldForm left dataTag b payload b' ↔
      ∃ data, Varint.Prefixed payload data ∧ b' = { b with data := data } := by
  constructor
  · intro h
    generalize htag : dataTag = tag at h
    cases h with
    | data _ hprefixed => exact ⟨_, hprefixed, rfl⟩
    | nbits => cases htag
    | unknown _ hfield =>
        have hunknown := hfield.unknown
        simp [← htag, Schema.knows] at hunknown
  · intro h
    rcases h with ⟨data, hprefixed, rfl⟩
    exact .data b hprefixed

theorem BitString.fieldForm_nbits_iff :
    FieldForm left nbitsTag b payload b' ↔
      ∃ nbits, (∃ word : UInt64, Varint.Spelling Limits.maxVarintBytes payload word.toNat ∧
        nbits = Varint.toInt32 word) ∧ b' = { b with nbits := nbits } := by
  constructor
  · intro h
    generalize htag : nbitsTag = tag at h
    cases h with
    | data => cases htag
    | nbits _ hword => exact ⟨_, ⟨_, hword, rfl⟩, rfl⟩
    | unknown _ hfield =>
        have hunknown := hfield.unknown
        simp [← htag, Schema.knows] at hunknown
  · intro h
    rcases h with ⟨_, ⟨word, hword, rfl⟩, rfl⟩
    exact .nbits b hword

theorem BitString.fieldForm_unknown_iff {tag : Tag} (hdata : tag ≠ dataTag)
    (hnbits : tag ≠ nbitsTag) :
    FieldForm left tag b payload b' ↔
      ∃ field, (field.tag = tag ∧ field.raw = payload ∧ field.WellFormed ∧ field.nesting ≤ left) ∧
        b' = b.addUnknown field := by
  constructor
  · intro h
    cases h with
    | data => exact (hdata rfl).elim
    | nbits => exact (hnbits rfl).elim
    | unknown _ hfield => exact ⟨_, ⟨rfl, rfl, hfield.wellFormed, hfield.nesting_le⟩, rfl⟩
  · intro h
    rcases h with ⟨field, ⟨rfl, rfl, hform, hnesting⟩, rfl⟩
    exact .unknown b ⟨by simp [Schema.knows, hdata, hnbits], hform, hnesting⟩

end

theorem BitString.mergeField_takes (max left : Nat) :
    Merged.Takes (mergeField max left) (FieldForm left) := by
  intro tag b input b' rest
  unfold mergeField
  by_cases hdata : tag = dataTag
  · cases hdata
    simp only [if_true, fieldForm_data_iff]
    exact Merged.field_eq_ok_iff (Reader.prefixed_reads "data")
  · by_cases hnbits : tag = nbitsTag
    · cases hnbits
      simp only [if_neg hdata, if_true, fieldForm_nbits_iff]
      exact Merged.field_eq_ok_iff (Reader.int32_reads "nbits")
    · simp only [if_neg hdata, if_neg hnbits, fieldForm_unknown_iff hdata hnbits]
      exact Merged.field_eq_ok_iff (UnknownField.read_reads max left tag)

/-! ## Messages -/

theorem Message.merge_eq_ok_iff (max left : Nat) :
    (∀ v input v', Value.merge max left v input = ⟨v', .ok ()⟩ ↔ Value.Merges left v input v') ∧
    ∀ c input c',
      Composite.merge max left c input = ⟨c', .ok ()⟩ ↔ Composite.Merges left c input c' := by
  induction left with
  | zero =>
      constructor
      · intro v input v'
        exact Merged.region_eq_ok_iff (Value.mergeField_takes max 0 (by simp))
      · intro c input c'
        exact Merged.region_eq_ok_iff (Composite.mergeField_takes max 0 (by simp))
  | succ left ih =>
      constructor
      · intro v input v'
        exact Merged.region_eq_ok_iff
          (Value.mergeField_takes max (left + 1) (by simpa using ih.2))
      · intro c input c'
        exact Merged.region_eq_ok_iff
          (Composite.mergeField_takes max (left + 1) (by simpa using ih.1))

namespace Message

theorem mergeInput_eq_ok_iff {s : Schema} {max : Nat} {m m' : Message s} {input : Bytes} :
    mergeInput max m input = ⟨m', .ok ()⟩ ↔ Merges max m input m' := by
  cases s with
  | value => exact (merge_eq_ok_iff max max).1 m input m'
  | composite => exact (merge_eq_ok_iff max max).2 m input m'
  | bits => exact Merged.region_eq_ok_iff (BitString.mergeField_takes max max)

theorem decode_eq_ok_iff {s : Schema} {limits : DecodeLimits} {input : Bytes} {m : Message s} :
    decode s limits input = .ok m ↔
      input.length ≤ limits.maxSize ∧ Merges limits.maxDepth (empty s) input m := by
  rw [← mergeInput_eq_ok_iff]
  unfold decode merge
  split
  · next hlarge =>
      constructor
      · intro h
        cases h
      · intro h
        omega
  · next hfits =>
      generalize mergeInput limits.maxDepth (empty s) input = merged
      rcases merged with ⟨m', outcome⟩
      cases outcome <;> simp [Except.map]
      omega

end Message

end TestWire
