import TestWire.Proofs.Message.RoundTrip

/-! # Relaying what was read

Merging keeps a message intact, and each byte that is read adds at most two to the encoding.  So a
message that was decoded can be encoded.
-/

namespace TestWire

/-! ## Merging keeps messages intact -/

theorem Value.FieldForm.intact {left : Nat} {merges : Composite → Bytes → Composite → Prop}
    {tag : Tag} {v v' : Value} {payload : Bytes} (h : FieldForm left merges tag v payload v')
    (hvalid : tag.Valid)
    (hmerges : ∀ c body c', merges c body c' →
      ∃ deeper, left = deeper + 1 ∧ (c.Intact deeper → c'.Intact deeper))
    (hv : v.Intact left) : v'.Intact left := by
  rcases within_iff.mp hv with ⟨hcomposite, hunknown⟩
  cases h with
  | scalar => exact within_leaf_iff.mpr hunknown
  | @aggregate _ c _ body _ hbody =>
      rcases hmerges _ _ _ hbody with ⟨deeper, rfl, hinner⟩
      refine within_aggregate_iff.mpr ⟨⟨deeper, rfl, hinner ?_⟩, hunknown⟩
      cases hactive : v.composite? with
      | none => exact Message.intact_empty .composite deeper
      | some active =>
          rcases hcomposite active hactive with ⟨_, hdeeper, hintact⟩
          cases hdeeper
          exact hintact
  | @unknown _ field hfield =>
      refine within_iff.mpr ⟨?_, ?_⟩
      · rw [addUnknown, composite?_withUnknown]
        exact hcomposite
      · rw [addUnknown, unknown_withUnknown]
        exact UnknownFields.Intact.append_singleton hunknown hvalid hfield

theorem Composite.FieldForm.intact {left : Nat} {merges : Value → Bytes → Value → Prop} {tag : Tag}
    {c c' : Composite} {payload : Bytes} (h : FieldForm left merges tag c payload c')
    (hvalid : tag.Valid)
    (hmerges : ∀ v body v', merges v body v' →
      ∃ deeper, left = deeper + 1 ∧ (v.Intact deeper → v'.Intact deeper))
    (hc : c.Intact left) : c'.Intact left := by
  rcases within_iff.mp hc with ⟨hvalues, hunknown⟩
  cases h with
  | @element _ v _ body _ hbody =>
      rcases hmerges _ _ _ hbody with ⟨deeper, rfl, hinner⟩
      refine within_iff.mpr ⟨fun other hmem => ?_, hunknown⟩
      rcases List.mem_append.mp hmem with hold | hnew
      · exact hvalues other hold
      · rw [List.mem_singleton.mp hnew]
        exact ⟨deeper, rfl, hinner (Message.intact_empty .value deeper)⟩
  | unknown _ hfield =>
      exact within_iff.mpr
        ⟨hvalues, UnknownFields.Intact.append_singleton hunknown hvalid hfield⟩

theorem BitString.FieldForm.intact {left : Nat} {tag : Tag} {b b' : BitString} {payload : Bytes}
    (h : FieldForm left tag b payload b') (hvalid : tag.Valid) (hb : b.unknown.Intact .bits left) :
    b'.unknown.Intact .bits left := by
  cases h with
  | data => exact hb
  | nbits => exact hb
  | unknown _ hfield => exact UnknownFields.Intact.append_singleton hb hvalid hfield

theorem BitString.Merges.intact {left : Nat} {b b' : BitString} {input : Bytes}
    (h : Merges left b input b') (hb : b.unknown.Intact .bits left) :
    b'.unknown.Intact .bits left := by
  have hfields : Merged.Fields (FieldForm left) b input b' := h
  exact hfields.keeps (fun hform hvalid => hform.intact hvalid) hb

theorem Message.merges_intact (left : Nat) :
    (∀ v input v', Value.Merges left v input v' → v.Intact left → v'.Intact left) ∧
    ∀ c input c', Composite.Merges left c input c' → c.Intact left → c'.Intact left := by
  apply merges_induction
  · intro left merges hmerges v input v' h
    exact h.keeps fun hform hvalid => hform.intact hvalid hmerges
  · intro left merges hmerges c input c' h
    exact h.keeps fun hform hvalid => hform.intact hvalid hmerges

theorem Message.Merges.intact {s : Schema} {left : Nat} {m m' : Message s} {input : Bytes}
    (h : Merges left m input m') (hm : m.Intact left) : m'.Intact left := by
  cases s with
  | value => exact (merges_intact left).1 m input m' h hm
  | composite => exact (merges_intact left).2 m input m' h hm
  | bits =>
      exact within_bits_iff.mpr (BitString.Merges.intact h (within_bits_iff.mp hm))

/-! ## How much the encoding grows -/

theorem Scalar.Form.length_payload_le {payload : Bytes} {scalar : Scalar}
    (h : Form payload scalar) : scalar.payload.length ≤ 2 * payload.length := by
  rw [Scalar.length_payload]
  have hprefixed {data : Bytes} (h : Varint.Prefixed payload data) :
      Varint.prefixedSize data.length ≤ 2 * payload.length := by
    rcases h with ⟨length, rfl, hlength⟩
    have hsize := hlength.size_le
    rw [Varint.prefixedSize, List.length_append]
    omega
  cases scalar with
  | octets data => exact hprefixed h
  | boolean value =>
      rcases h with ⟨word, hword, _⟩
      have hpos := hword.length_pos
      rw [payloadSize]
      omega
  | verdict v =>
      rcases h with ⟨word, hword, rfl⟩
      rw [payloadSize, Verdict.ordinal_ofOrdinal]
      exact hword.int32Size_le
  | text content =>
      rw [payloadSize, ← Bytes.length_ofString]
      exact hprefixed h
  | real value =>
      have hlength := h.1
      rw [payloadSize]
      omega
  | integer value =>
      rcases h with ⟨word, hword, rfl⟩
      exact hword.int32Size_le
  | bigNumber literal =>
      rw [payloadSize, ← Bytes.length_ofString]
      exact hprefixed h

theorem Scalar.length_plain_le (scalar : Scalar) :
    scalar.plain.length ≤ scalar.case.tag.size + scalar.payload.length := by
  unfold plain
  split
  · exact Nat.zero_le _
  · simp

theorem Value.length_plain_addUnknown (v : Value) (field : UnknownField) :
    (v.addUnknown field).plain.length = v.plain.length + field.size := by
  cases v <;>
    simp [addUnknown, withUnknown, Value.unknown, plain, UnknownFields.encode, Nat.add_assoc]

theorem Value.length_encode_unknown_le (v : Value) :
    (UnknownFields.encode v.unknown).length ≤ v.plain.length := by
  cases v <;> simp [plain, Value.unknown]

theorem Value.length_plain_setComposite (v : Value) (c : Composite) :
    (v.setComposite c).plain.length =
      Case.aggregate.tag.size + Varint.prefixedSize c.plain.length +
        (UnknownFields.encode v.unknown).length := by
  simp only [setComposite, plain, List.length_append, Tag.length_encodeNested, Composite.plain]

/-- The aggregate that an aggregate field merges into is there already, or costs two bytes. -/
theorem Value.prefixedSize_active_le (v : Value) :
    Case.aggregate.tag.size + Varint.prefixedSize (v.composite?.getD {}).plain.length +
        (UnknownFields.encode v.unknown).length ≤ v.plain.length + 2 := by
  cases v with
  | leaf content unknown =>
      have hempty :
          Case.aggregate.tag.size + Varint.prefixedSize (Composite.plain {}).length = 2 := by
        decide +kernel
      simp only [composite?, Option.getD_none, Value.unknown, hempty, plain, List.length_append]
      omega
  | aggregate values inner unknown =>
      have hlength := (aggregate values inner unknown).length_plain_setComposite ⟨values, inner⟩
      simp only [setComposite, Value.unknown] at hlength
      simp only [composite?, Option.getD_some, Value.unknown]
      omega

theorem Value.FieldForm.length_le {left : Nat} {merges : Composite → Bytes → Composite → Prop}
    {tag : Tag} {front payload : Bytes} {v v' : Value} (h : FieldForm left merges tag v payload v')
    (hfront : Tag.Spelling front tag)
    (hmerges : ∀ c body c', merges c body c' → c.plain.length + 2 * body.length < 2 ^ 64 →
      c'.plain.length ≤ c.plain.length + 2 * body.length)
    (hlt : v.plain.length + 2 * (front.length + payload.length) < 2 ^ 64) :
    v'.plain.length ≤ v.plain.length + 2 * (front.length + payload.length) := by
  have htag := hfront.size_le
  have hpos := hfront.length_pos
  have hunknown := v.length_encode_unknown_le
  cases h with
  | @scalar _ scalar _ hform =>
      have hpayload := hform.length_payload_le
      have hscalar := scalar.length_plain_le
      rw [setScalar, plain, Option.elim_some, List.length_append]
      omega
  | @aggregate _ c _ body hprefixed hbody =>
      have hactive := v.prefixedSize_active_le
      have hcontent := hprefixed.length_le
      have hsize : (v.composite?.getD {}).plain.length + 2 * body.length < 2 ^ 64 := by
        rw [Varint.prefixedSize] at hactive
        have hsizes := Varint.size_pos
          (UInt64.ofNat (v.composite?.getD {}).plain.length)
        have htagPos : 0 < Case.aggregate.tag.size := Varint.size_pos _
        omega
      have hgrown := hprefixed.prefixedSize_le (hmerges _ _ _ hbody hsize) hsize
      rw [length_plain_setComposite]
      omega
  | @unknown _ field _ =>
      rw [length_plain_addUnknown, UnknownField.size]
      omega

theorem Composite.length_plain_push (c : Composite) (v : Value) :
    (c.push v).plain.length =
      c.plain.length + (elementTag.size + Varint.prefixedSize v.plain.length) := by
  have hvalues (values : List Value) : (Value.plainAll (values ++ [v])).length =
      (Value.plainAll values).length + (elementTag.size + Varint.prefixedSize v.plain.length) := by
    induction values with
    | nil => simp [Value.plainAll]
    | cons first values ih =>
        simp only [List.cons_append, Value.plainAll, List.length_append, ih]
        omega
  simp only [push, plain, List.length_append, hvalues]
  omega

theorem Composite.length_plain_addUnknown (c : Composite) (field : UnknownField) :
    (c.addUnknown field).plain.length = c.plain.length + field.size := by
  simp [addUnknown, plain, UnknownFields.encode, Nat.add_assoc]

theorem Composite.FieldForm.length_le {left : Nat} {merges : Value → Bytes → Value → Prop}
    {tag : Tag} {front payload : Bytes} {c c' : Composite}
    (h : FieldForm left merges tag c payload c') (hfront : Tag.Spelling front tag)
    (hmerges : ∀ v body v', merges v body v' → v.plain.length + 2 * body.length < 2 ^ 64 →
      v'.plain.length ≤ v.plain.length + 2 * body.length)
    (hlt : c.plain.length + 2 * (front.length + payload.length) < 2 ^ 64) :
    c'.plain.length ≤ c.plain.length + 2 * (front.length + payload.length) := by
  have htag := hfront.size_le
  have hpos := hfront.length_pos
  cases h with
  | @element _ v _ body hprefixed hbody =>
      have hunset : Value.unset.plain.length = 0 := rfl
      have hnothing : elementTag.size + Varint.prefixedSize 0 = 2 := by decide +kernel
      have hcontent := hprefixed.length_le
      have hsize : Value.unset.plain.length + 2 * body.length < 2 ^ 64 := by omega
      have hgrown := hprefixed.prefixedSize_le (hmerges _ _ _ hbody hsize) hsize
      rw [hunset] at hgrown
      rw [length_plain_push]
      omega
  | @unknown _ field _ =>
      rw [length_plain_addUnknown, UnknownField.size]
      omega

theorem BitString.length_plain (b : BitString) :
    b.plain.length =
      (if b.data.isEmpty then 0 else dataTag.size + Varint.prefixedSize b.data.length) +
        (if b.nbits = 0 then 0 else nbitsTag.size + Varint.int32Size b.nbits) +
        (UnknownFields.encode b.unknown).length := by
  unfold plain
  split <;> split <;> simp [Nat.add_assoc]

theorem BitString.length_plain_addUnknown (b : BitString) (field : UnknownField) :
    (b.addUnknown field).plain.length = b.plain.length + field.size := by
  have hplain : (b.addUnknown field).plain = b.plain ++ field.encode := by
    have hencode : UnknownFields.encode (b.unknown ++ [field]) =
        UnknownFields.encode b.unknown ++ field.encode := by
      simp [UnknownFields.encode]
    rw [plain, plain, List.append_assoc _ _ field.encode, ← hencode]
    rfl
  rw [hplain, List.length_append, UnknownField.length_encode]

theorem BitString.FieldForm.length_le {left : Nat} {tag : Tag} {front payload : Bytes}
    {b b' : BitString} (h : FieldForm left tag b payload b') (hfront : Tag.Spelling front tag) :
    b'.plain.length ≤ b.plain.length + 2 * (front.length + payload.length) := by
  have htag := hfront.size_le
  cases h with
  | @data _ _ data hprefixed =>
      rcases hprefixed with ⟨length, rfl, hlength⟩
      have hsize : Varint.prefixedSize data.length ≤ length.length + data.length :=
        Nat.add_le_add_right hlength.size_le _
      have hfield : (if data.isEmpty then 0 else dataTag.size + Varint.prefixedSize data.length) ≤
          dataTag.size + Varint.prefixedSize data.length := by
        split <;> omega
      simp only [length_plain, List.length_append]
      omega
  | @nbits _ _ word hword =>
      have hsize := hword.int32Size_le
      have hfield : (if Varint.toInt32 word = 0 then 0
          else nbitsTag.size + Varint.int32Size (Varint.toInt32 word)) ≤
          nbitsTag.size + Varint.int32Size (Varint.toInt32 word) := by
        split <;> omega
      simp only [length_plain]
      omega
  | @unknown _ field _ =>
      rw [length_plain_addUnknown, UnknownField.size]
      omega

theorem Message.merges_length_le (left : Nat) :
    (∀ v input v', Value.Merges left v input v' → v.plain.length + 2 * input.length < 2 ^ 64 →
      v'.plain.length ≤ v.plain.length + 2 * input.length) ∧
    ∀ c input c', Composite.Merges left c input c' → c.plain.length + 2 * input.length < 2 ^ 64 →
      c'.plain.length ≤ c.plain.length + 2 * input.length := by
  apply merges_induction
  · intro left merges hmerges v input v' h
    refine h.measure_le (fun v => v.plain.length) fun hfront hform =>
      hform.length_le hfront fun c body c' hbody => ?_
    rcases hmerges c body c' hbody with ⟨_, _, hle⟩
    exact hle
  · intro left merges hmerges c input c' h
    refine h.measure_le (fun c => c.plain.length) fun hfront hform =>
      hform.length_le hfront fun v body v' hbody => ?_
    rcases hmerges v body v' hbody with ⟨_, _, hle⟩
    exact hle

/-- An encoding grows by at most two bytes for each that is merged. -/
theorem Message.Merges.length_le {s : Schema} {left : Nat} {m m' : Message s} {input : Bytes}
    (h : Merges left m input m') (hlt : m.plain.length + 2 * input.length < 2 ^ 64) :
    m'.plain.length ≤ m.plain.length + 2 * input.length := by
  cases s with
  | value => exact (merges_length_le left).1 m input m' h hlt
  | composite => exact (merges_length_le left).2 m input m' h hlt
  | bits =>
      have hfields : Merged.Fields (BitString.FieldForm left) m input m' := h
      exact hfields.measure_le (fun b => b.plain.length)
        (fun hfront hform _ => hform.length_le hfront) hlt

/-! ## Normal forms have the same encoding -/

theorem Scalar.elim_norm? (scalar : Scalar) :
    scalar.norm?.elim [] Scalar.plain = scalar.plain := by
  cases scalar with
  | octets data => cases data <;> rfl
  | verdict v => simp [norm?, plain, isOmitted, case, payload]
  | _ => rfl

theorem Value.plainAll_normAll_of_forall {values : List Value}
    (h : ∀ v ∈ values, v.norm.plain = v.plain) :
    Value.plainAll (Value.normAll values) = Value.plainAll values := by
  induction values with
  | nil => rfl
  | cons v values ih =>
      have hhead := h v List.mem_cons_self
      have htail := ih fun v hv => h v (List.mem_cons_of_mem _ hv)
      rw [Value.normAll, Value.plainAll, Value.plainAll, hhead, htail]

theorem Value.plain_norm (v : Value) : v.norm.plain = v.plain := by
  induction v using Value.induction with
  | leaf content unknown =>
      cases content with
      | none => rfl
      | some scalar =>
          rw [norm, plain, plain, Option.bind_some, Scalar.elim_norm?, Option.elim_some]
  | aggregate values inner unknown ih =>
      rw [norm, plain, plain, Value.plainAll_normAll_of_forall ih]

theorem Message.plain_norm {s : Schema} (m : Message s) : m.norm.plain = m.plain := by
  cases s with
  | value => exact Value.plain_norm m
  | composite =>
      have hall : Value.plainAll (Value.normAll (Composite.values m)) =
          Value.plainAll (Composite.values m) :=
        Value.plainAll_normAll_of_forall fun v _ => v.plain_norm
      simp only [norm, plain, Composite.norm, Composite.plain, hall]
  | bits => rfl

/-! ## Decoded messages -/

namespace Message

variable {s : Schema} {limits : DecodeLimits} {input : Bytes} {m : Message s}

theorem plain_empty (s : Schema) : (empty s).plain = [] := by
  cases s <;> rfl

theorem intact_of_decode (h : decode s limits input = .ok m) : m.Intact limits.maxDepth :=
  (decode_eq_ok_iff.mp h).2.intact (intact_empty s limits.maxDepth)

theorem length_plain_le_of_decode (h : decode s limits input = .ok m)
    (hinput : 2 * input.length < 2 ^ 64) : m.plain.length ≤ 2 * input.length := by
  have hempty : (empty s).plain.length = 0 := by rw [plain_empty, List.length_nil]
  have hle := (decode_eq_ok_iff.mp h).2.length_le (by omega)
  omega

/--
Everything that decodes can be relayed: what was decoded has an encoding within the same levels and
at most twice as long as the input.  It decodes to the normal form, and that encodes to the same
bytes again.
-/
theorem relay_of_decode (hdecode : decode s limits input = .ok m)
    (hinput : 2 * input.length ≤ Limits.maxEncodedSize) :
    ∃ bytes, encode limits.maxDepth m = .ok bytes ∧ bytes.length ≤ 2 * input.length ∧
      (∀ maxSize, bytes.length ≤ maxSize →
        decode s ⟨limits.maxDepth, maxSize⟩ bytes = .ok m.norm) ∧
      encode limits.maxDepth m.norm = .ok bytes := by
  have hintact := intact_of_decode hdecode
  have hbound : Limits.maxEncodedSize < 2 ^ 64 := by decide
  have hle := length_plain_le_of_decode hdecode (by omega)
  have hencoded : m.plain.length ≤ Limits.maxEncodedSize := by omega
  refine ⟨m.plain, hintact.encode_eq hencoded, hle, ?_, ?_⟩
  · intro maxSize hsize
    have hlimits : m.Intact (⟨limits.maxDepth, maxSize⟩ : DecodeLimits).maxDepth := hintact
    exact hlimits.decode_plain hencoded hsize
  · have hnorm : m.norm.Intact limits.maxDepth := within_norm_iff.mpr hintact
    have hencode := hnorm.encode_eq (by rwa [plain_norm])
    rwa [plain_norm] at hencode

/-- Overlong varints, two aggregates that merge, an unknown field, and an early end. -/
def overlongVarints : Bytes :=
  [0x42, 0x88, 0, 0x0a, 6, 0x30, 255, 255, 255, 255, 15, 0x42, 2, 0x0a, 0, 0xc8, 0, 0x81, 0, 0, 255]

/-- The integer grows by five bytes, and the bytes of the unknown field stay overlong. -/
theorem relay_of_decode_overlong_varints :
    ∃ m, decode .value ⟨2, 21⟩ overlongVarints = .ok m ∧
      ∃ bytes, encode 2 m = .ok bytes ∧ bytes.length ≤ 42 ∧
        (∀ maxSize, bytes.length ≤ maxSize → decode .value ⟨2, maxSize⟩ bytes = .ok m.norm) ∧
        encode 2 m.norm = .ok bytes := by
  have hdecode : decode .value ⟨2, 21⟩ overlongVarints =
      .ok (Value.aggregate [.leaf (some (.integer (-1))) [], .unset] []
        [⟨9, .varint, [0x81, 0]⟩]) := rfl
  exact ⟨_, hdecode, relay_of_decode hdecode (by decide)⟩

end Message

end TestWire
