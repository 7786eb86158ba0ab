import TestWire.Proofs.Message.Grammar
import TestWire.Proofs.Message.TwoPass

/-! # Intact messages

A message is intact within some levels when nothing in it nests deeper and each of its unknown
fields stays unknown on the way through the wire.
-/

namespace TestWire

/-- A field that a message of this type takes for an unknown one, once it is written. -/
structure Schema.Foreign (s : Schema) (field : UnknownField) : Prop where
  valid : field.tag.Valid
  unknown : s.knows field.tag = false
  wellFormed : field.WellFormed

abbrev UnknownFields.Intact : Schema → Nat → UnknownFields → Prop :=
  UnknownFields.Within UnknownFields.nesting Schema.Foreign

abbrev Value.Intact : Nat → Value → Prop :=
  Value.Within UnknownFields.nesting Schema.Foreign

abbrev Composite.Intact : Nat → Composite → Prop :=
  Composite.Within UnknownFields.nesting Schema.Foreign

/-- All that is unknown in the message stays so, and it is read back within `left` levels. -/
abbrev Message.Intact {s : Schema} : Nat → Message s → Prop :=
  Message.Within UnknownFields.nesting Schema.Foreign

/-! ## Unknown fields -/

section

variable {s : Schema} {left : Nat} {fields : UnknownFields} {field : UnknownField}

theorem UnknownFields.Intact.nil (s : Schema) (left : Nat) : Intact s left [] :=
  ⟨Nat.zero_le left, fun _ hmem => nomatch hmem⟩

theorem UnknownFields.Intact.keeps (h : fields.Intact s left) (hmem : field ∈ fields) :
    s.Keeps left field := by
  have hforeign := h.2 field hmem
  exact ⟨hforeign.unknown, hforeign.wellFormed, UnknownFields.nesting_le_iff.mp h.1 field hmem⟩

theorem UnknownFields.Intact.append_singleton (h : fields.Intact s left)
    (hvalid : field.tag.Valid) (hfield : s.Keeps left field) :
    UnknownFields.Intact s left (fields ++ [field]) := by
  constructor
  · rw [UnknownFields.nesting_le_iff]
    intro other hmem
    rcases List.mem_append.mp hmem with hold | hnew
    · exact UnknownFields.nesting_le_iff.mp h.1 other hold
    · rw [List.mem_singleton.mp hnew]
      exact hfield.nesting_le
  · intro other hmem
    rcases List.mem_append.mp hmem with hold | hnew
    · exact h.2 other hold
    · rw [List.mem_singleton.mp hnew]
      exact ⟨hvalid, hfield.unknown, hfield.wellFormed⟩

end

theorem Message.intact_empty (s : Schema) (left : Nat) : (empty s).Intact left := by
  cases s with
  | value => exact ⟨Nat.zero_le left, fun _ hmem => nomatch hmem⟩
  | composite => exact ⟨Nat.zero_le left, fun _ hmem => nomatch hmem⟩
  | bits => exact ⟨Nat.zero_le left, fun _ hmem => nomatch hmem⟩

/-! ## What stands against a message -/

/-- Of the fields there are, a message refuses exactly those that are not foreign to it. -/
theorem Schema.refusal?_eq_none_iff {s : Schema} {field : UnknownField} (h : field.WellFormed) :
    s.refusal? field = none ↔ s.Foreign field := by
  rcases h with ⟨depth, hform⟩
  have hend := hform.wireType_ne_endGroup
  unfold refusal?
  constructor
  · intro hnone
    split at hnone
    · cases hnone
    · next hnumber =>
        split at hnone
        · cases hnone
        · next hunknown =>
            rw [not_or] at hnumber
            have hvalid : field.tag.Valid :=
              ⟨Nat.le_of_not_lt hnumber.2, fun hzero => (hnumber.1 hzero).elim⟩
            exact ⟨hvalid, by simpa using hunknown, depth, hform⟩
  · intro hforeign
    have hle := hforeign.valid.1
    rw [if_neg, if_neg (by simp [hforeign.unknown])]
    intro hnumber
    rcases hnumber with hzero | hlarge
    · exact hend (hforeign.valid.2 hzero)
    · simp only [UnknownField.tag] at hle
      omega

/-- Messages nest at most `left` levels deep here, and no unknown field is refused. -/
abbrev Value.Accepted : Nat → Value → Prop :=
  Value.Within (fun _ => 0) fun s field => s.refusal? field = none

abbrev Composite.Accepted : Nat → Composite → Prop :=
  Composite.Within (fun _ => 0) fun s field => s.refusal? field = none

abbrev Message.Accepted {s : Schema} : Nat → Message s → Prop :=
  Message.Within (fun _ => 0) fun s field => s.refusal? field = none

section

variable {max left : Nat}

theorem Schema.refusals_eq_nil_iff (left : Nat) {s : Schema} {fields : UnknownFields} :
    s.refusals fields = [] ↔
      fields.Within (fun _ => 0) (fun s field => s.refusal? field = none) s left := by
  simp [refusals, UnknownFields.Within]

theorem Value.violationsAll_eq_nil_iff {values : List Value} :
    Value.violationsAll max left values = [] ↔
      ∀ v ∈ values, ∃ deeper, left = deeper + 1 ∧ v.violations max deeper = [] := by
  induction values with
  | nil => cases left <;> simp [Value.violationsAll]
  | cons v values ih =>
      cases left with
      | zero =>
          simp only [Value.violationsAll, List.forall_mem_cons]
          simp
      | succ left =>
          simp only [Value.violationsAll, List.append_eq_nil_iff, ih, List.forall_mem_cons]
          simp

theorem Composite.violations_eq_nil_iff_of_forall {c : Composite}
    (h : ∀ v ∈ c.values, ∀ left, v.violations max left = [] ↔ v.Accepted left) :
    c.violations max left = [] ↔ c.Accepted left := by
  have hvalues : (∀ v ∈ c.values, ∃ deeper, left = deeper + 1 ∧ v.violations max deeper = []) ↔
      ∀ v ∈ c.values, ∃ deeper, left = deeper + 1 ∧ v.Accepted deeper :=
    forall₂_congr fun v hv => exists_congr fun deeper => and_congr_right fun _ => h v hv deeper
  refine Iff.trans ?_ within_iff.symm
  rw [violations, List.append_eq_nil_iff, Value.violationsAll_eq_nil_iff, hvalues,
    Schema.refusals_eq_nil_iff left]

theorem Value.violations_eq_nil_iff {v : Value} :
    v.violations max left = [] ↔ v.Accepted left := by
  induction v using Value.induction generalizing left with
  | leaf content unknown =>
      exact (Schema.refusals_eq_nil_iff left).trans within_leaf_iff.symm
  | aggregate values inner unknown ih =>
      refine Iff.trans ?_ within_aggregate_iff.symm
      cases left with
      | zero => simp [violations]
      | succ left =>
          have hcomposite : (⟨values, inner⟩ : Composite).violations max left = [] ↔
              (⟨values, inner⟩ : Composite).Accepted left :=
            Composite.violations_eq_nil_iff_of_forall fun v hv left => ih v hv
          have hviolations : (aggregate values inner unknown).violations max (left + 1) =
              (⟨values, inner⟩ : Composite).violations max left ++
                Schema.value.refusals unknown := rfl
          rw [hviolations, List.append_eq_nil_iff, hcomposite,
            Schema.refusals_eq_nil_iff (left + 1)]
          simp

theorem Composite.violations_eq_nil_iff {c : Composite} :
    c.violations max left = [] ↔ c.Accepted left :=
  Composite.violations_eq_nil_iff_of_forall fun _ _ _ => Value.violations_eq_nil_iff

end

theorem Message.violations_eq_nil_iff {s : Schema} {max : Nat} {m : Message s} :
    m.violations max = [] ↔ m.Accepted max := by
  cases s with
  | value => exact Value.violations_eq_nil_iff
  | composite => exact Composite.violations_eq_nil_iff
  | bits => exact (Schema.refusals_eq_nil_iff max).trans within_bits_iff.symm

/-! ## Sizes of unknown fields -/

theorem UnknownFields.length_raw_le {s : Schema} {held : Schema × UnknownField}
    {fields : UnknownFields} (h : held ∈ fields.map (Prod.mk s)) :
    held.2.raw.length ≤ (UnknownFields.encode fields).length := by
  induction fields with
  | nil => cases h
  | cons field fields ih =>
      rw [encode_cons, List.length_append, UnknownField.length_encode, UnknownField.size]
      rw [List.map_cons] at h
      rcases List.mem_cons.mp h with rfl | hmem
      · show field.raw.length ≤ _
        omega
      · have hle := ih hmem
        omega

theorem Value.length_plain_le_plainAll {v : Value} {values : List Value} (h : v ∈ values) :
    v.plain.length ≤ (Value.plainAll values).length := by
  induction values with
  | nil => cases h
  | cons first values ih =>
      rw [Value.plainAll, List.length_append, Tag.length_encodeNested, Varint.prefixedSize]
      rcases List.mem_cons.mp h with rfl | hmem
      · omega
      · have hle := ih hmem
        omega

theorem Composite.length_raw_le_of_forall {c : Composite}
    (h : ∀ v ∈ c.values, ∀ held ∈ v.everyUnknown, held.2.raw.length ≤ v.plain.length)
    {held : Schema × UnknownField} (hheld : held ∈ c.everyUnknown) :
    held.2.raw.length ≤ c.plain.length := by
  rw [everyUnknown, Value.everyUnknownAll_eq_flatMap] at hheld
  rw [plain, List.length_append]
  rcases List.mem_append.mp hheld with hbelow | hhere
  · rcases List.mem_flatMap.mp hbelow with ⟨v, hv, hmem⟩
    have hle := h v hv held hmem
    have hplain := Value.length_plain_le_plainAll hv
    omega
  · have hle := UnknownFields.length_raw_le hhere
    omega

theorem Value.length_raw_le {v : Value} {held : Schema × UnknownField}
    (h : held ∈ v.everyUnknown) : held.2.raw.length ≤ v.plain.length := by
  induction v using Value.induction generalizing held with
  | leaf content unknown =>
      have hle := UnknownFields.length_raw_le h
      rw [Value.plain, List.length_append]
      omega
  | aggregate values inner unknown ih =>
      have hcomposite : (Value.plainAll values ++ UnknownFields.encode inner).length =
          (⟨values, inner⟩ : Composite).plain.length := rfl
      rw [Value.plain, List.length_append, Tag.length_encodeNested, hcomposite,
        Varint.prefixedSize]
      rcases List.mem_append.mp h with hbelow | hhere
      · have hle := Composite.length_raw_le_of_forall (c := ⟨values, inner⟩)
          (fun v hv _ hmem => ih v hv hmem) hbelow
        omega
      · have hle := UnknownFields.length_raw_le hhere
        omega

theorem Message.length_raw_le {s : Schema} {m : Message s} {held : Schema × UnknownField}
    (h : held ∈ m.everyUnknown) : held.2.raw.length ≤ m.plain.length := by
  cases s with
  | value => exact Value.length_raw_le h
  | composite => exact Composite.length_raw_le_of_forall (fun _ _ _ => Value.length_raw_le) h
  | bits =>
      have hle := UnknownFields.length_raw_le h
      simp only [Message.plain, BitString.plain, List.length_append]
      omega

/-! ## Encodings -/

namespace Message

variable {s : Schema} {m : Message s}

theorem depth_le_nesting (m : Message s) : m.depth ≤ m.nesting :=
  levels_mono (fun _ => Nat.zero_le _) m

theorem Intact.violations_eq_nil {left : Nat} (h : m.Intact left) : m.violations left = [] := by
  rw [violations_eq_nil_iff]
  constructor
  · exact Nat.le_trans m.depth_le_nesting h.1
  · intro held hheld
    have hforeign := h.2 held hheld
    exact (Schema.refusal?_eq_none_iff hforeign.wellFormed).mpr hforeign

theorem Intact.encode_eq {left : Nat} (h : m.Intact left)
    (hsize : m.plain.length ≤ Limits.maxEncodedSize) : encode left m = .ok m.plain :=
  encode_eq_ok_iff.mpr ⟨h.violations_eq_nil, hsize, rfl⟩

/-- A message of genuine fields that is encoded within any levels is intact within its own. -/
theorem Genuine.intact (h : m.Genuine) {maxDepth : Nat} {bytes : Bytes}
    (hencode : encode maxDepth m = .ok bytes) : m.Intact m.nesting := by
  rcases encode_eq_ok_iff.mp hencode with ⟨hnone, hsize, _⟩
  have haccepted := (violations_eq_nil_iff.mp hnone).2
  refine ⟨Nat.le_refl _, fun held hheld => ?_⟩
  have hraw := length_raw_le hheld
  simp only [Limits.maxEncodedSize] at hsize
  have hform : held.2.WellFormed := (h held hheld).wellFormed (by omega)
  exact (Schema.refusal?_eq_none_iff hform).mp (haccepted held hheld)

end Message

end TestWire
