import TestWire.Message.Encode
import TestWire.Proofs.Wire.UnknownField

/-! # Messages as trees

What holds at every level of a message.  Values nest through the lists of their elements, so proofs
about them go by `Value.induction`.
-/

namespace TestWire

@[elab_as_elim]
theorem Value.induction {motive : Value → Prop}
    (leaf : ∀ content unknown, motive (.leaf content unknown))
    (aggregate : ∀ values inner unknown, (∀ v ∈ values, motive v) →
      motive (.aggregate values inner unknown)) (v : Value) : motive v := by
  refine @Value.rec motive (fun values => ∀ v ∈ values, motive v) leaf aggregate ?_ ?_ v
  · intro v hv
    cases hv
  · intro head tail hhead htail v hv
    rcases List.mem_cons.mp hv with rfl | hmem
    · exact hhead
    · exact htail v hmem

/-! ## Unknown fields at every level -/

mutual

/-- The unknown fields of a value and below it, each with the type of the message it is in. -/
def Value.everyUnknown : Value → List (Schema × UnknownField)
  | .leaf _ unknown => unknown.map (Prod.mk .value)
  | .aggregate values inner unknown =>
      Value.everyUnknownAll values ++ inner.map (Prod.mk .composite) ++
        unknown.map (Prod.mk .value)

def Value.everyUnknownAll : List Value → List (Schema × UnknownField)
  | [] => []
  | v :: values => v.everyUnknown ++ Value.everyUnknownAll values

end

def Composite.everyUnknown (c : Composite) : List (Schema × UnknownField) :=
  Value.everyUnknownAll c.values ++ c.unknown.map (Prod.mk .composite)

def Message.everyUnknown : {s : Schema} → Message s → List (Schema × UnknownField)
  | .value, v => Value.everyUnknown v
  | .composite, c => Composite.everyUnknown c
  | .bits, b => (BitString.unknown b).map (Prod.mk .bits)

/-- Every unknown field of the message, at every level, was built from a value or read. -/
def Message.Genuine {s : Schema} (m : Message s) : Prop :=
  ∀ held ∈ m.everyUnknown, held.2.Genuine

theorem Value.everyUnknownAll_eq_flatMap (values : List Value) :
    Value.everyUnknownAll values = values.flatMap Value.everyUnknown := by
  induction values with
  | nil => rfl
  | cons v values ih => simp [Value.everyUnknownAll, ih]

/-! ## Levels -/

def UnknownFields.nesting : UnknownFields → Nat
  | [] => 0
  | field :: fields => max field.nesting (nesting fields)

theorem UnknownFields.nesting_le_iff {fields : UnknownFields} {n : Nat} :
    fields.nesting ≤ n ↔ ∀ field ∈ fields, field.nesting ≤ n := by
  induction fields with
  | nil => simp [nesting]
  | cons field fields ih => rw [nesting, Nat.max_le, ih, List.forall_mem_cons]

mutual

/-- The levels below a value; `own` counts those in the unknown fields of one message. -/
def Value.levels (own : UnknownFields → Nat) : Value → Nat
  | .leaf _ unknown => own unknown
  | .aggregate values inner unknown =>
      max (max (Value.levelsAll own values) (own inner) + 1) (own unknown)

def Value.levelsAll (own : UnknownFields → Nat) : List Value → Nat
  | [] => 0
  | v :: values => max (v.levels own + 1) (Value.levelsAll own values)

end

def Composite.levels (own : UnknownFields → Nat) (c : Composite) : Nat :=
  max (Value.levelsAll own c.values) (own c.unknown)

namespace Message

def levels (own : UnknownFields → Nat) : {s : Schema} → Message s → Nat
  | .value, v => Value.levels own v
  | .composite, c => Composite.levels own c
  | .bits, b => own (BitString.unknown b)

/-- How deep messages nest: each value and each composite is one level. -/
def depth {s : Schema} (m : Message s) : Nat :=
  m.levels fun _ => 0

/-- How deep anything nests: values, composites and the groups in unknown fields. -/
def nesting {s : Schema} (m : Message s) : Nat :=
  m.levels UnknownFields.nesting

end Message

theorem Value.levelsAll_eq_foldr (own : UnknownFields → Nat) (values : List Value) :
    Value.levelsAll own values = (values.map fun v => v.levels own + 1).foldr max 0 := by
  induction values with
  | nil => rfl
  | cons v values ih => simp [Value.levelsAll, ih]

theorem Value.levelsAll_le_iff {own : UnknownFields → Nat} {values : List Value} {n : Nat} :
    Value.levelsAll own values ≤ n ↔ ∀ v ∈ values, v.levels own + 1 ≤ n := by
  induction values with
  | nil => simp [Value.levelsAll]
  | cons v values ih => simp only [Value.levelsAll, Nat.max_le, ih, List.forall_mem_cons]

/-! Counting more within unknown fields counts more in all. -/

section

variable {own own' : UnknownFields → Nat}

theorem Value.levelsAll_mono_of_forall {values : List Value}
    (h : ∀ v ∈ values, v.levels own ≤ v.levels own') :
    Value.levelsAll own values ≤ Value.levelsAll own' values := by
  rw [Value.levelsAll_le_iff]
  intro v hv
  have hle := h v hv
  have hmem := Value.levelsAll_le_iff.mp (Nat.le_refl (Value.levelsAll own' values)) v hv
  omega

theorem Value.levels_mono (h : ∀ fields, own fields ≤ own' fields) (v : Value) :
    v.levels own ≤ v.levels own' := by
  induction v using Value.induction with
  | leaf content unknown => exact h unknown
  | aggregate values inner unknown ih =>
      have hall := Value.levelsAll_mono_of_forall ih
      have hinner := h inner
      have hunknown := h unknown
      simp only [Value.levels]
      omega

theorem Message.levels_mono (h : ∀ fields, own fields ≤ own' fields) {s : Schema} (m : Message s) :
    m.levels own ≤ m.levels own' := by
  cases s with
  | value => exact Value.levels_mono h m
  | composite =>
      have hall : Value.levelsAll own (Composite.values m) ≤
          Value.levelsAll own' (Composite.values m) :=
        Value.levelsAll_mono_of_forall fun v _ => v.levels_mono h
      have hunknown := h (Composite.unknown m)
      simp only [levels, Composite.levels]
      omega
  | bits => exact h (BitString.unknown m)

end

/-! ## Bounds at every level -/

section

variable (own : UnknownFields → Nat) (holds : Schema → UnknownField → Prop)

def UnknownFields.Within (s : Schema) (left : Nat) (fields : UnknownFields) : Prop :=
  own fields ≤ left ∧ ∀ field ∈ fields, holds s field

def Value.Within (left : Nat) (v : Value) : Prop :=
  v.levels own ≤ left ∧ ∀ held ∈ v.everyUnknown, holds held.1 held.2

def Composite.Within (left : Nat) (c : Composite) : Prop :=
  c.levels own ≤ left ∧ ∀ held ∈ c.everyUnknown, holds held.1 held.2

/-- There are at most `left` levels below the message, and each unknown field is as it should be. -/
def Message.Within {s : Schema} (left : Nat) (m : Message s) : Prop :=
  m.levels own ≤ left ∧ ∀ held ∈ m.everyUnknown, holds held.1 held.2

end

section

variable {own : UnknownFields → Nat} {holds : Schema → UnknownField → Prop} {left : Nat}

theorem Value.within_leaf_iff {content : Option Scalar} {unknown : UnknownFields} :
    (leaf content unknown).Within own holds left ↔ unknown.Within own holds .value left := by
  simp [Within, levels, everyUnknown, UnknownFields.Within]

theorem Value.within_aggregate_iff {values : List Value} {inner unknown : UnknownFields} :
    (aggregate values inner unknown).Within own holds left ↔
      (∃ deeper, left = deeper + 1 ∧ (⟨values, inner⟩ : Composite).Within own holds deeper) ∧
        unknown.Within own holds .value left := by
  simp only [Within, Composite.Within, Composite.levels, Composite.everyUnknown, levels,
    everyUnknown, Nat.max_le, UnknownFields.Within]
  constructor
  · intro h
    rcases h with ⟨⟨hinner, hunknown⟩, hholds⟩
    refine ⟨⟨left - 1, by omega, by omega, fun held hheld => ?_⟩, hunknown, fun field hfield => ?_⟩
    · exact hholds held (List.mem_append_left _ hheld)
    · exact hholds (.value, field) (List.mem_append_right _ (List.mem_map_of_mem hfield))
  · intro h
    rcases h with ⟨⟨deeper, rfl, hinner, hholds⟩, hunknown, hown⟩
    refine ⟨⟨by omega, hunknown⟩, fun held hheld => ?_⟩
    rcases List.mem_append.mp hheld with hbelow | hhere
    · exact hholds held hbelow
    · rcases List.mem_map.mp hhere with ⟨field, hfield, rfl⟩
      exact hown field hfield

theorem Composite.within_iff {c : Composite} :
    c.Within own holds left ↔
      (∀ v ∈ c.values, ∃ deeper, left = deeper + 1 ∧ v.Within own holds deeper) ∧
        c.unknown.Within own holds .composite left := by
  simp only [Within, levels, everyUnknown, Nat.max_le, Value.levelsAll_le_iff,
    Value.everyUnknownAll_eq_flatMap, UnknownFields.Within, Value.Within, List.mem_append,
    List.mem_flatMap, List.mem_map]
  constructor
  · intro h
    rcases h with ⟨⟨hvalues, hunknown⟩, hholds⟩
    refine ⟨fun v hv => ⟨left - 1, ?_, ?_, fun held hheld => ?_⟩, hunknown, fun field hfield => ?_⟩
    · have hle := hvalues v hv
      omega
    · have hle := hvalues v hv
      omega
    · exact hholds held (.inl ⟨v, hv, hheld⟩)
    · exact hholds (.composite, field) (.inr ⟨field, hfield, rfl⟩)
  · intro h
    rcases h with ⟨hvalues, hunknown, hholds⟩
    refine ⟨⟨fun v hv => ?_, hunknown⟩, fun held hheld => ?_⟩
    · rcases hvalues v hv with ⟨deeper, rfl, hle, _⟩
      omega
    · rcases hheld with ⟨v, hv, hheld⟩ | ⟨field, hfield, rfl⟩
      · rcases hvalues v hv with ⟨_, _, _, hbelow⟩
        exact hbelow held hheld
      · exact hholds field hfield

theorem Value.within_iff {v : Value} :
    v.Within own holds left ↔
      (∀ c, v.composite? = some c → ∃ deeper, left = deeper + 1 ∧ c.Within own holds deeper) ∧
        v.unknown.Within own holds .value left := by
  cases v with
  | leaf content unknown => simp [within_leaf_iff, composite?, Value.unknown]
  | aggregate values inner unknown => simp [within_aggregate_iff, composite?, Value.unknown]

theorem Message.within_bits_iff {b : BitString} :
    Message.Within (s := .bits) own holds left b ↔ b.unknown.Within own holds .bits left := by
  simp [Within, levels, everyUnknown, UnknownFields.Within]

end

/-! ## Normal forms -/

def Scalar.norm? : Scalar → Option Scalar
  | .octets [] => none
  | .verdict v => some (.verdict (.ofOrdinal v.ordinal))
  | scalar => some scalar

mutual

def Value.norm : Value → Value
  | .leaf content unknown => .leaf (content.bind Scalar.norm?) unknown
  | .aggregate values inner unknown => .aggregate (Value.normAll values) inner unknown

def Value.normAll : List Value → List Value
  | [] => []
  | v :: values => v.norm :: Value.normAll values

end

def Composite.norm (c : Composite) : Composite :=
  { c with values := Value.normAll c.values }

/-- The message as the wire tells it: without empty octetstrings, and with verdicts by the name of
their ordinal. -/
def Message.norm : {s : Schema} → Message s → Message s
  | .value, v => Value.norm v
  | .composite, c => Composite.norm c
  | .bits, b => b

theorem Value.normAll_eq_map (values : List Value) :
    Value.normAll values = values.map Value.norm := by
  induction values with
  | nil => rfl
  | cons v values ih => simp [Value.normAll, ih]

/-! The normal form keeps what holds at every level. -/

theorem Value.levelsAll_normAll_of_forall {own : UnknownFields → Nat} {values : List Value}
    (h : ∀ v ∈ values, v.norm.levels own = v.levels own) :
    Value.levelsAll own (Value.normAll values) = Value.levelsAll own values := by
  rw [Value.levelsAll_eq_foldr, Value.levelsAll_eq_foldr, Value.normAll_eq_map, List.map_map]
  have hmap : values.map ((fun v => v.levels own + 1) ∘ Value.norm) =
      values.map fun v => v.levels own + 1 :=
    List.map_congr_left fun v hv => congrArg (· + 1) (h v hv)
  rw [hmap]

@[simp] theorem Value.levels_norm (own : UnknownFields → Nat) (v : Value) :
    v.norm.levels own = v.levels own := by
  induction v using Value.induction with
  | leaf content unknown => rfl
  | aggregate values inner unknown ih =>
      simp only [Value.norm, Value.levels, Value.levelsAll_normAll_of_forall ih]

@[simp] theorem Message.levels_norm (own : UnknownFields → Nat) {s : Schema} (m : Message s) :
    m.norm.levels own = m.levels own := by
  cases s with
  | value => exact Value.levels_norm own m
  | composite =>
      have hall : Value.levelsAll own (Value.normAll (Composite.values m)) =
          Value.levelsAll own (Composite.values m) :=
        Value.levelsAll_normAll_of_forall fun v _ => v.levels_norm own
      simp only [norm, levels, Composite.norm, Composite.levels, hall]
  | bits => rfl

theorem Value.everyUnknownAll_normAll_of_forall {values : List Value}
    (h : ∀ v ∈ values, v.norm.everyUnknown = v.everyUnknown) :
    Value.everyUnknownAll (Value.normAll values) = Value.everyUnknownAll values := by
  rw [Value.everyUnknownAll_eq_flatMap, Value.everyUnknownAll_eq_flatMap, Value.normAll_eq_map,
    List.flatMap_map, List.flatMap_def, List.flatMap_def, List.map_congr_left h]

@[simp] theorem Value.everyUnknown_norm (v : Value) : v.norm.everyUnknown = v.everyUnknown := by
  induction v using Value.induction with
  | leaf content unknown => rfl
  | aggregate values inner unknown ih =>
      simp only [Value.norm, Value.everyUnknown, Value.everyUnknownAll_normAll_of_forall ih]

@[simp] theorem Message.everyUnknown_norm {s : Schema} (m : Message s) :
    m.norm.everyUnknown = m.everyUnknown := by
  cases s with
  | value => exact Value.everyUnknown_norm m
  | composite =>
      have hall : Value.everyUnknownAll (Value.normAll (Composite.values m)) =
          Value.everyUnknownAll (Composite.values m) :=
        Value.everyUnknownAll_normAll_of_forall fun v _ => v.everyUnknown_norm
      simp only [norm, everyUnknown, Composite.norm, Composite.everyUnknown, hall]
  | bits => rfl

theorem Message.within_norm_iff {own : UnknownFields → Nat} {holds : Schema → UnknownField → Prop}
    {s : Schema} {left : Nat} {m : Message s} :
    m.norm.Within own holds left ↔ m.Within own holds left := by
  rw [Within, Within, levels_norm, everyUnknown_norm]

end TestWire
