import TestWire.Proofs.Message.Intact

/-! # Reading back what was written -/

namespace TestWire

/-! ## Scalars -/

theorem Bytes.toNatLE_ofNatLE (width n : Nat) : toNatLE (ofNatLE width n) = n % 256 ^ width := by
  induction width generalizing n with
  | zero => simp [ofNatLE, toNatLE, Nat.mod_one]
  | succ width ih =>
      have hbyte : (UInt8.ofNat (n % 256)).toNat = n % 256 := by
        rw [UInt8.toNat_ofNat']
        omega
      rw [ofNatLE, toNatLE, ih, hbyte, Nat.pow_succ, Nat.mul_comm (256 ^ width), Nat.mod_mul]

theorem Scalar.norm?_eq_none_iff {scalar : Scalar} : scalar.norm? = none ↔ scalar.isOmitted := by
  unfold norm? isOmitted
  split <;> simp_all

theorem Scalar.form_payload {scalar scalar' : Scalar} (h : scalar.norm? = some scalar')
    (hsize : scalar.payload.length < 2 ^ 64) :
    scalar'.case = scalar.case ∧ Form scalar.payload scalar' := by
  cases scalar with
  | octets data =>
      simp only [payload, Varint.length_encodePrefixed, Varint.prefixedSize] at hsize
      cases data with
      | nil => cases h
      | cons byte data =>
          cases h
          exact ⟨rfl, Varint.prefixed_encodePrefixed (by omega)⟩
  | boolean value =>
      cases h
      exact ⟨rfl, _, Varint.spelling_encode _, by cases value <;> decide⟩
  | verdict v =>
      cases h
      exact ⟨rfl, _, Varint.spelling_encode _, by rw [Varint.toInt32_ofInt32]⟩
  | text content =>
      simp only [payload, Varint.length_encodePrefixed, Varint.prefixedSize] at hsize
      cases h
      exact ⟨rfl, Varint.prefixed_encodePrefixed (by omega)⟩
  | real value =>
      cases h
      have hbits : value.bits.toNat % 256 ^ 8 = value.bits.toNat :=
        Nat.mod_eq_of_lt value.bits.toNat_lt
      refine ⟨rfl, Bytes.length_ofNatLE 8 _, ?_⟩
      rw [payload, Bytes.toNatLE_ofNatLE, hbits, UInt64.ofNat_toNat]
  | integer value =>
      cases h
      exact ⟨rfl, _, Varint.spelling_encode _, (Varint.toInt32_ofInt32 value).symm⟩
  | bigNumber literal =>
      simp only [payload, Varint.length_encodePrefixed, Varint.prefixedSize] at hsize
      cases h
      exact ⟨rfl, Varint.prefixed_encodePrefixed (by omega)⟩

theorem Case.valid_tag (c : Case) : c.tag.Valid := by
  cases c <;> decide

theorem Case.wireType_tag_ne_endGroup (c : Case) : c.tag.wireType ≠ .endGroup := by
  cases c <;> decide

/-! ## Unknown fields -/

theorem UnknownFields.Intact.head {s : Schema} {left : Nat} {field : UnknownField}
    {fields : UnknownFields} (h : UnknownFields.Intact s left (field :: fields)) :
    s.Keeps left field ∧ field.tag.Valid ∧ fields.Intact s left := by
  have hnesting := h.1
  simp only [nesting, Nat.max_le] at hnesting
  exact ⟨h.keeps List.mem_cons_self, (h.2 field List.mem_cons_self).valid, hnesting.2,
    fun other hmem => h.2 other (List.mem_cons_of_mem _ hmem)⟩

/-- Unknown fields at the end of a message are added to it one by one. -/
theorem Merged.Fields.unknown {μ : Type} {form : Tag → μ → Bytes → μ → Prop} {s : Schema}
    {left : Nat} {add : μ → UnknownField → μ}
    (hform : ∀ m field, s.Keeps left field → form field.tag m field.raw (add m field))
    {fields : UnknownFields} (h : fields.Intact s left) (m : μ) :
    Fields form m (UnknownFields.encode fields) (fields.foldl add m) := by
  induction fields generalizing m with
  | nil => exact .done m
  | cons field fields ih =>
      rcases h.head with ⟨hkeeps, hvalid, hrest⟩
      rcases hkeeps.wellFormed with ⟨depth, hpayload⟩
      rw [UnknownFields.encode_cons, UnknownField.encode, List.append_assoc]
      exact .field (Tag.spelling_encode hvalid) hpayload.wireType_ne_endGroup
        (hform m field hkeeps) (ih hrest (add m field))

theorem Value.foldl_addUnknown (fields : UnknownFields) (v : Value) :
    fields.foldl addUnknown v = v.withUnknown (v.unknown ++ fields) := by
  induction fields generalizing v with
  | nil => cases v <;> simp [withUnknown, Value.unknown]
  | cons field fields ih =>
      rw [List.foldl_cons, ih]
      cases v <;> simp [addUnknown, withUnknown, Value.unknown]

theorem Composite.foldl_addUnknown (fields : UnknownFields) (c : Composite) :
    fields.foldl addUnknown c = { c with unknown := c.unknown ++ fields } := by
  induction fields generalizing c with
  | nil => simp
  | cons field fields ih =>
      rw [List.foldl_cons, ih]
      simp [addUnknown]

theorem BitString.foldl_addUnknown (fields : UnknownFields) (b : BitString) :
    fields.foldl addUnknown b = { b with unknown := b.unknown ++ fields } := by
  induction fields generalizing b with
  | nil => simp
  | cons field fields ih =>
      rw [List.foldl_cons, ih]
      simp [addUnknown]

/-! ## Values and composites -/

theorem Value.fields_unknown {left : Nat} {merges : Composite → Bytes → Composite → Prop}
    (v : Value) {unknown : UnknownFields} (h : unknown.Intact .value left) :
    Merged.Fields (FieldForm left merges) v (UnknownFields.encode unknown)
      (v.withUnknown (v.unknown ++ unknown)) := by
  rw [← foldl_addUnknown]
  exact Merged.Fields.unknown (fun v field hfield => .unknown v hfield) h v

theorem Value.fields_plain_leaf {left : Nat} {merges : Composite → Bytes → Composite → Prop}
    {content : Option Scalar} {unknown : UnknownFields} (h : unknown.Intact .value left)
    (hsize : (leaf content unknown).plain.length < 2 ^ 64) :
    Merged.Fields (FieldForm left merges) unset (leaf content unknown).plain
      (leaf content unknown).norm := by
  have hnothing : Merged.Fields (FieldForm left merges) unset (UnknownFields.encode unknown)
      (leaf none unknown) := unset.fields_unknown h
  cases content with
  | none => exact hnothing
  | some scalar =>
      rw [plain, Option.elim_some, Scalar.plain] at hsize ⊢
      rw [norm, Option.bind_some]
      cases hnorm : scalar.norm? with
      | none =>
          rw [if_pos (Scalar.norm?_eq_none_iff.mp hnorm)]
          exact hnothing
      | some scalar' =>
          have homitted : ¬ scalar.isOmitted := by
            rw [← Scalar.norm?_eq_none_iff, hnorm]
            exact Option.some_ne_none scalar'
          rw [if_neg homitted] at hsize ⊢
          simp only [List.length_append] at hsize
          rcases Scalar.form_payload hnorm (by omega) with ⟨hcase, hform⟩
          rw [← hcase, List.append_assoc]
          have hrest : Merged.Fields (FieldForm left merges) (unset.setScalar scalar')
              (UnknownFields.encode unknown) (leaf (some scalar') unknown) :=
            (unset.setScalar scalar').fields_unknown h
          exact .field (Tag.spelling_encode (Case.valid_tag _))
            (Case.wireType_tag_ne_endGroup _) (.scalar unset hform) hrest

theorem Composite.fields_unknown {left : Nat} {merges : Value → Bytes → Value → Prop}
    (c : Composite) {unknown : UnknownFields} (h : unknown.Intact .composite left) :
    Merged.Fields (FieldForm left merges) c (UnknownFields.encode unknown)
      { c with unknown := c.unknown ++ unknown } := by
  rw [← foldl_addUnknown]
  exact Merged.Fields.unknown (fun c field hfield => .unknown c hfield) h c

theorem Composite.fields_plainAll {left : Nat} {merges : Value → Bytes → Value → Prop}
    {values : List Value} (h : ∀ v ∈ values, merges .unset v.plain v.norm)
    (hsize : (Value.plainAll values).length < 2 ^ 64) {c c' : Composite} {rest : Bytes}
    (hrest : Merged.Fields (FieldForm left merges)
      { c with values := c.values ++ Value.normAll values } rest c') :
    Merged.Fields (FieldForm left merges) c (Value.plainAll values ++ rest) c' := by
  induction values generalizing c with
  | nil => simpa [Value.normAll, Value.plainAll] using hrest
  | cons v values ih =>
      simp only [Value.plainAll, List.length_append, Tag.length_encodeNested,
        Varint.prefixedSize] at hsize
      have htail : Merged.Fields (FieldForm left merges) (c.push v.norm)
          (Value.plainAll values ++ rest) c' := by
        apply ih (fun v hv => h v (List.mem_cons_of_mem _ hv)) (by omega)
        simpa [push, Value.normAll] using hrest
      rw [Value.plainAll, Tag.encodeNested, List.append_assoc, List.append_assoc]
      exact .field (Tag.spelling_encode (by decide)) (by decide)
        (.element c (Varint.prefixed_encodePrefixed (by omega)) (h v List.mem_cons_self)) htail

theorem Composite.fields_plain {left : Nat} {merges : Value → Bytes → Value → Prop} {c : Composite}
    (h : ∀ v ∈ c.values, merges .unset v.plain v.norm) (hunknown : c.unknown.Intact .composite left)
    (hsize : c.plain.length < 2 ^ 64) :
    Merged.Fields (FieldForm left merges) {} c.plain c.norm := by
  rw [plain, List.length_append] at hsize
  exact fields_plainAll h (by omega) (fields_unknown _ hunknown)

theorem Composite.merges_plain_of_forall {c : Composite}
    (h : ∀ v ∈ c.values, ∀ left, v.Intact left → v.plain.length < 2 ^ 64 →
      Value.Merges left .unset v.plain v.norm)
    {left : Nat} (hintact : c.Intact left) (hsize : c.plain.length < 2 ^ 64) :
    Composite.Merges left {} c.plain c.norm := by
  rcases within_iff.mp hintact with ⟨hvalues, hunknown⟩
  have hplain (v : Value) (hv : v ∈ c.values) : v.plain.length < 2 ^ 64 := by
    have hle := Value.length_plain_le_plainAll hv
    rw [plain, List.length_append] at hsize
    omega
  cases left with
  | zero =>
      refine fields_plain (fun v hv => ?_) hunknown hsize
      rcases hvalues v hv with ⟨deeper, hdeeper, _⟩
      cases hdeeper
  | succ left =>
      refine fields_plain (fun v hv => ?_) hunknown hsize
      rcases hvalues v hv with ⟨deeper, hdeeper, hv'⟩
      cases hdeeper
      exact h v hv left hv' (hplain v hv)

theorem Value.merges_plain {v : Value} {left : Nat} (h : v.Intact left)
    (hsize : v.plain.length < 2 ^ 64) : Value.Merges left .unset v.plain v.norm := by
  induction v using Value.induction generalizing left with
  | leaf content unknown =>
      have hunknown := within_leaf_iff.mp h
      cases left with
      | zero => exact fields_plain_leaf hunknown hsize
      | succ left => exact fields_plain_leaf hunknown hsize
  | aggregate values inner unknown ih =>
      rcases within_aggregate_iff.mp h with ⟨⟨deeper, rfl, hcomposite⟩, hunknown⟩
      have hlength : (aggregate values inner unknown).plain.length =
          Case.aggregate.tag.size + Varint.prefixedSize (Composite.plain ⟨values, inner⟩).length +
            (UnknownFields.encode unknown).length := by
        simp only [plain, List.length_append, Tag.length_encodeNested, Composite.plain]
      rw [hlength, Varint.prefixedSize] at hsize
      have hbody : Composite.Merges deeper {} (Composite.plain ⟨values, inner⟩)
          (Composite.norm ⟨values, inner⟩) :=
        Composite.merges_plain_of_forall (fun v hv _ => ih v hv) hcomposite (by omega)
      have hrest : Merged.Fields (FieldForm (deeper + 1) (Composite.Merges deeper))
          (unset.setComposite (Composite.norm ⟨values, inner⟩)) (UnknownFields.encode unknown)
          (aggregate values inner unknown).norm :=
        (unset.setComposite (Composite.norm ⟨values, inner⟩)).fields_unknown hunknown
      have hplain : (aggregate values inner unknown).plain =
          Case.aggregate.tag.encode ++
            (Varint.encodePrefixed (Composite.plain ⟨values, inner⟩) ++
              UnknownFields.encode unknown) := by
        simp only [plain, Tag.encodeNested, Composite.plain, List.append_assoc]
      rw [hplain]
      exact .field (Tag.spelling_encode (Case.valid_tag _)) (Case.wireType_tag_ne_endGroup _)
        (.aggregate unset (Varint.prefixed_encodePrefixed (by omega)) hbody) hrest

theorem Composite.merges_plain {c : Composite} {left : Nat} (h : c.Intact left)
    (hsize : c.plain.length < 2 ^ 64) : Composite.Merges left {} c.plain c.norm :=
  merges_plain_of_forall (fun _ _ _ => Value.merges_plain) h hsize

/-! ## Bit strings -/

theorem BitString.fields_unknown {left : Nat} (b : BitString) {unknown : UnknownFields}
    (h : unknown.Intact .bits left) :
    Merged.Fields (FieldForm left) b (UnknownFields.encode unknown)
      { b with unknown := b.unknown ++ unknown } := by
  rw [← foldl_addUnknown]
  exact Merged.Fields.unknown (fun b field hfield => .unknown b hfield) h b

theorem BitString.merges_plain {left : Nat} {b : BitString} (h : b.unknown.Intact .bits left)
    (hsize : b.plain.length < 2 ^ 64) : BitString.Merges left {} b.plain b := by
  rcases b with ⟨data, nbits, unknown⟩
  simp only [plain, List.length_append] at hsize
  have hunknown : Merged.Fields (FieldForm left) ⟨data, nbits, []⟩ (UnknownFields.encode unknown)
      ⟨data, nbits, unknown⟩ := fields_unknown ⟨data, nbits, []⟩ h
  have hnbits : Merged.Fields (FieldForm left) (⟨data, 0, []⟩ : BitString)
      ((if nbits = 0 then [] else nbitsTag.encode ++ Varint.encodeInt32 nbits) ++
        UnknownFields.encode unknown) ⟨data, nbits, unknown⟩ := by
    split
    · next hzero =>
        rw [← hzero]
        exact hunknown
    · next hzero =>
        have hform : FieldForm left nbitsTag ⟨data, 0, []⟩ (Varint.encodeInt32 nbits)
            ⟨data, Varint.toInt32 (Varint.ofInt32 nbits), []⟩ :=
          .nbits _ (Varint.spelling_encode (Varint.ofInt32 nbits))
        rw [Varint.toInt32_ofInt32] at hform
        rw [List.append_assoc]
        exact .field (Tag.spelling_encode (by decide)) (by decide) hform hunknown
  rw [plain, List.append_assoc]
  split at hsize
  · next hempty =>
      obtain rfl := List.isEmpty_iff.mp hempty
      exact hnbits
  · next hdata =>
      simp only [List.length_append, Varint.length_encodePrefixed, Varint.prefixedSize] at hsize
      have hlength : data.length < 2 ^ 64 := by omega
      rw [if_neg hdata, List.append_assoc]
      exact .field (Tag.spelling_encode (by decide)) (by decide)
        (.data {} (Varint.prefixed_encodePrefixed hlength)) hnbits

/-! ## Messages -/

namespace Message

variable {s : Schema} {m : Message s}

/-- An intact message is made of the fields of its own encoding, up to its normal form. -/
theorem Intact.merges_plain {left : Nat} (h : m.Intact left) (hsize : m.plain.length < 2 ^ 64) :
    Merges left (empty s) m.plain m.norm := by
  cases s with
  | value => exact Value.merges_plain h hsize
  | composite => exact Composite.merges_plain h hsize
  | bits => exact BitString.merges_plain (within_bits_iff.mp h) hsize

theorem Intact.decode_plain {limits : DecodeLimits} (h : m.Intact limits.maxDepth)
    (hencoded : m.plain.length ≤ Limits.maxEncodedSize) (hsize : m.plain.length ≤ limits.maxSize) :
    decode s limits m.plain = .ok m.norm := by
  simp only [Limits.maxEncodedSize] at hencoded
  exact decode_eq_ok_iff.mpr ⟨hsize, h.merges_plain (by omega)⟩

/--
Decoding undoes encoding.  A message of any unknown fields there are, encoded within any levels, is
decoded to its normal form by limits that leave room for its bytes and for its nesting.
-/
theorem decode_encode_eq_norm (hgenuine : m.Genuine) {maxDepth : Nat} {bytes : Bytes}
    (hencode : encode maxDepth m = .ok bytes) {limits : DecodeLimits}
    (hsize : bytes.length ≤ limits.maxSize) (hdepth : m.nesting ≤ limits.maxDepth) :
    decode s limits bytes = .ok m.norm := by
  rcases encode_eq_ok_iff.mp hencode with ⟨_, hencoded, rfl⟩
  rcases hgenuine.intact hencode with ⟨_, hforeign⟩
  have hintact : m.Intact limits.maxDepth := ⟨hdepth, hforeign⟩
  exact hintact.decode_plain hencoded hsize

/-- The aggregate `{ ''O, -1 }` with a group in a group behind its elements. -/
def groupedAggregate : Message .value :=
  Value.aggregate [.leaf (some (.octets [])) [.varint 9 300], .leaf (some (.integer (-1))) []]
    [⟨7, .startGroup, [0x3b, 0x3c, 0x3c]⟩] [.lengthDelimited 1000 [1]]

theorem genuine_groupedAggregate : groupedAggregate.Genuine := by
  have hread : UnknownField.read 2 2 ⟨7, .startGroup⟩ [0x3b, 0x3c, 0x3c] =
      .ok ⟨7, .startGroup, [0x3b, 0x3c, 0x3c]⟩ [] := rfl
  intro held hheld
  have hevery : groupedAggregate.everyUnknown =
      [(.value, .varint 9 300), (.composite, ⟨7, .startGroup, [0x3b, 0x3c, 0x3c]⟩),
        (.value, .lengthDelimited 1000 [1])] := rfl
  simp only [hevery, List.mem_cons, List.not_mem_nil, or_false] at hheld
  rcases hheld with rfl | rfl | rfl
  · exact .varint 9 300
  · exact .captured hread
  · exact .lengthDelimited 1000 [1]

/-- It comes back with nothing in the place of the empty octetstring, from three levels. -/
theorem decode_encode_eq_norm_grouped_aggregate :
    encode 2 groupedAggregate =
      .ok [0x42, 22, 0x0a, 3, 0x48, 0xac, 2, 0x0a, 11, 0x30, 255, 255, 255, 255, 255, 255, 255, 255,
        255, 1, 0x3b, 0x3b, 0x3c, 0x3c, 0xc2, 0x3e, 1, 1] ∧
    groupedAggregate.nesting = 3 ∧
    decode .value ⟨3, 28⟩
        [0x42, 22, 0x0a, 3, 0x48, 0xac, 2, 0x0a, 11, 0x30, 255, 255, 255, 255, 255, 255, 255, 255,
          255, 1, 0x3b, 0x3b, 0x3c, 0x3c, 0xc2, 0x3e, 1, 1] =
      .ok (Value.aggregate [.leaf none [.varint 9 300], .leaf (some (.integer (-1))) []]
        [⟨7, .startGroup, [0x3b, 0x3c, 0x3c]⟩] [.lengthDelimited 1000 [1]]) := by
  have hencode : encode 2 groupedAggregate =
      .ok [0x42, 22, 0x0a, 3, 0x48, 0xac, 2, 0x0a, 11, 0x30, 255, 255, 255, 255, 255, 255, 255, 255,
        255, 1, 0x3b, 0x3b, 0x3c, 0x3c, 0xc2, 0x3e, 1, 1] :=
    encode_eq_ok_iff.mpr ⟨rfl, by decide +kernel, by decide +kernel⟩
  have hnesting : groupedAggregate.nesting = 3 := by decide +kernel
  exact ⟨hencode, hnesting,
    decode_encode_eq_norm genuine_groupedAggregate hencode (by decide) (Nat.le_of_eq hnesting)⟩

end Message

end TestWire
