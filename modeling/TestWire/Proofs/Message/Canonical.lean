import TestWire.Proofs.Message.DepthLimits

/-! # Canonical encodings

`Schema.Canonical` is a grammar that leaves nothing open which the encoder decides: the inputs in it
are those that are encoded as they were decoded.
-/

namespace TestWire

/-! ## The grammar -/

/-- The shortest spelling of a tag that can be read. -/
structure Tag.Shortest (front : Bytes) (tag : Tag) : Prop where
  varint : Varint.Shortest front tag.raw.toNat
  valid : tag.Valid

/-- Any fields that a message of this type does not know, each behind the shortest tag. -/
inductive UnknownFields.Canonical (s : Schema) : Bytes → Prop
  | nil : Canonical s []
  | cons {tag : Tag} {front payload rest : Bytes} {depth : Nat} (hfront : Tag.Shortest front tag)
      (hunknown : s.knows tag = false) (hpayload : Payload.Form tag payload depth)
      (hrest : Canonical s rest) : Canonical s (front ++ (payload ++ rest))

inductive Scalar.Canonical : Case → Bytes → Prop
  | octets {payload data : Bytes} (hpayload : Varint.ShortestPrefixed payload data)
      (hdata : data ≠ []) : Canonical .octets payload
  | boolean {payload : Bytes} (hpayload : payload = [0] ∨ payload = [1]) :
      Canonical .boolean payload
  | verdict {payload : Bytes} (n : Int32)
      (hpayload : Varint.Shortest payload (Varint.ofInt32 n).toNat) : Canonical .verdict payload
  | text {payload : Bytes} (content : String)
      (hpayload : Varint.ShortestPrefixed payload (Bytes.ofString content)) :
      Canonical .text payload
  | real {payload : Bytes} (hpayload : payload.length = 8) : Canonical .real payload
  | integer {payload : Bytes} (n : Int32)
      (hpayload : Varint.Shortest payload (Varint.ofInt32 n).toNat) : Canonical .integer payload
  | bigNumber {payload : Bytes} (literal : String)
      (hpayload : Varint.ShortestPrefixed payload (Bytes.ofString literal)) :
      Canonical .bigNumber payload

inductive BitString.CanonicalData : Bytes → Prop
  | absent : CanonicalData []
  | present {front payload data : Bytes} (hfront : Tag.Shortest front dataTag)
      (hpayload : Varint.ShortestPrefixed payload data) (hdata : data ≠ []) :
      CanonicalData (front ++ payload)

inductive BitString.CanonicalCount : Bytes → Prop
  | absent : CanonicalCount []
  | present {front payload : Bytes} (nbits : Int32) (hfront : Tag.Shortest front nbitsTag)
      (hpayload : Varint.Shortest payload (Varint.ofInt32 nbits).toNat) (hnbits : nbits ≠ 0) :
      CanonicalCount (front ++ payload)

/-- A value is one known field at most, a composite a run of elements, a bit string its data and
then their number; unknown fields come behind. -/
inductive Schema.Canonical : Schema → Bytes → Prop
  | unset {unknown : Bytes} (hunknown : UnknownFields.Canonical .value unknown) :
      Canonical .value unknown
  | scalar {c : Case} {front payload unknown : Bytes} (hfront : Tag.Shortest front c.tag)
      (hpayload : Scalar.Canonical c payload)
      (hunknown : UnknownFields.Canonical .value unknown) :
      Canonical .value (front ++ (payload ++ unknown))
  | aggregate {front payload body unknown : Bytes}
      (hfront : Tag.Shortest front Case.aggregate.tag)
      (hpayload : Varint.ShortestPrefixed payload body) (hbody : Canonical .composite body)
      (hunknown : UnknownFields.Canonical .value unknown) :
      Canonical .value (front ++ (payload ++ unknown))
  | elementless {unknown : Bytes} (hunknown : UnknownFields.Canonical .composite unknown) :
      Canonical .composite unknown
  | element {front payload body rest : Bytes} (hfront : Tag.Shortest front Composite.elementTag)
      (hpayload : Varint.ShortestPrefixed payload body) (hbody : Canonical .value body)
      (hrest : Canonical .composite rest) : Canonical .composite (front ++ (payload ++ rest))
  | bits {data count unknown : Bytes} (hdata : BitString.CanonicalData data)
      (hcount : BitString.CanonicalCount count)
      (hunknown : UnknownFields.Canonical .bits unknown) :
      Canonical .bits (data ++ (count ++ unknown))

/-! ## Tags and unknown fields -/

theorem Tag.shortest_iff {front : Bytes} {tag : Tag} :
    Shortest front tag ↔ front = tag.encode ∧ tag.Valid := by
  constructor
  · intro h
    exact ⟨Varint.shortest_iff.mp h.varint, h.valid⟩
  · intro h
    exact ⟨Varint.shortest_iff.mpr h.1, h.2⟩

theorem Tag.shortest_encode {tag : Tag} (h : tag.Valid) : Shortest tag.encode tag :=
  shortest_iff.mpr ⟨rfl, h⟩

theorem Tag.eq_encodeNested {front payload body : Bytes} {tag : Tag} (hfront : Shortest front tag)
    (hpayload : Varint.ShortestPrefixed payload body) :
    front ++ payload = tag.encodeNested body := by
  rw [(shortest_iff.mp hfront).1, (Varint.shortestPrefixed_iff.mp hpayload).2, encodeNested]

theorem UnknownFields.canonical_iff {s : Schema} {input : Bytes} :
    Canonical s input ↔ ∃ fields, encode fields = input ∧ ∀ field ∈ fields, s.Foreign field := by
  constructor
  · intro h
    induction h with
    | nil => exact ⟨[], rfl, by simp⟩
    | @cons tag front payload rest depth hfront hunknown hpayload _ ih =>
        obtain ⟨fields, rfl, hforeign⟩ := ih
        obtain ⟨rfl, hvalid⟩ := Tag.shortest_iff.mp hfront
        let field : UnknownField := ⟨tag.number, tag.wireType, payload⟩
        have hfield : s.Foreign field := ⟨hvalid, hunknown, depth, hpayload⟩
        refine ⟨field :: fields, ?_, by simpa using ⟨hfield, hforeign⟩⟩
        rw [encode_cons, UnknownField.encode, List.append_assoc]
        rfl
  · rintro ⟨fields, rfl, hforeign⟩
    induction fields with
    | nil => exact .nil
    | cons field fields ih =>
        obtain ⟨hfield, hrest⟩ := List.forall_mem_cons.mp hforeign
        obtain ⟨depth, hpayload⟩ := hfield.wellFormed
        rw [encode_cons, UnknownField.encode, List.append_assoc]
        exact .cons (Tag.shortest_encode hfield.valid) hfield.unknown hpayload (ih hrest)

theorem Varint.shortestPrefixed_encodePrefixed {content : Bytes}
    (hsize : (encodePrefixed content).length < 2 ^ 64) :
    ShortestPrefixed (encodePrefixed content) content := by
  rw [length_encodePrefixed, prefixedSize] at hsize
  exact shortestPrefixed_iff.mpr ⟨by omega, rfl⟩

/-! ## Scalars -/

theorem Bytes.ofNatLE_toNat_ofNat_toNatLE {bytes : Bytes} (h : bytes.length = 8) :
    ofNatLE 8 (UInt64.ofNat bytes.toNatLE).toNat = bytes := by
  have hback : ofNatLE 8 bytes.toNatLE = bytes := by rw [← h, ofNatLE_toNatLE]
  have hmod : bytes.toNatLE = bytes.toNatLE % 256 ^ 8 := by
    rw [← toNatLE_ofNatLE, hback]
  rw [UInt64.toNat_ofNat', show 2 ^ 64 = 256 ^ 8 by decide, ← hmod, hback]

namespace Scalar

theorem exists_of_canonical {c : Case} {payload : Bytes} (h : Canonical c payload) :
    ∃ scalar : Scalar, scalar.case = c ∧ scalar.payload = payload ∧ ¬ scalar.isOmitted := by
  cases h with
  | @octets _ data hpayload hdata =>
      refine ⟨octets data, rfl, (Varint.shortestPrefixed_iff.mp hpayload).2.symm, ?_⟩
      cases data with
      | nil => exact (hdata rfl).elim
      | cons byte data => simp [isOmitted]
  | boolean hpayload =>
      rcases hpayload with rfl | rfl
      · exact ⟨boolean false, rfl, by decide, by simp [isOmitted]⟩
      · exact ⟨boolean true, rfl, by decide, by simp [isOmitted]⟩
  | verdict n hpayload =>
      refine ⟨verdict (.ofOrdinal n), rfl, ?_, by simp [isOmitted]⟩
      rw [Scalar.payload, Verdict.ordinal_ofOrdinal]
      exact (Varint.shortest_iff.mp hpayload).symm
  | text content hpayload =>
      exact ⟨text content, rfl, (Varint.shortestPrefixed_iff.mp hpayload).2.symm,
        by simp [isOmitted]⟩
  | real hpayload =>
      exact ⟨real ⟨UInt64.ofNat payload.toNatLE⟩, rfl, Bytes.ofNatLE_toNat_ofNat_toNatLE hpayload,
        by simp [isOmitted]⟩
  | integer n hpayload =>
      exact ⟨integer n, rfl, (Varint.shortest_iff.mp hpayload).symm, by simp [isOmitted]⟩
  | bigNumber literal hpayload =>
      exact ⟨bigNumber literal, rfl, (Varint.shortestPrefixed_iff.mp hpayload).2.symm,
        by simp [isOmitted]⟩

theorem canonical_payload {scalar : Scalar} (h : ¬ scalar.isOmitted)
    (hsize : scalar.payload.length < 2 ^ 64) : Canonical scalar.case scalar.payload := by
  cases scalar with
  | octets data =>
      refine .octets (Varint.shortestPrefixed_encodePrefixed hsize) fun hnil => ?_
      simp [hnil, isOmitted] at h
  | boolean value => exact .boolean (by cases value <;> decide)
  | verdict v => exact .verdict v.ordinal (Varint.shortest_encode _)
  | text content => exact .text content (Varint.shortestPrefixed_encodePrefixed hsize)
  | real value => exact .real (Bytes.length_ofNatLE 8 _)
  | integer value => exact .integer value (Varint.shortest_encode _)
  | bigNumber literal => exact .bigNumber literal (Varint.shortestPrefixed_encodePrefixed hsize)

end Scalar

/-! ## Messages of the grammar -/

theorem Composite.plain_cons (v : Value) (values : List Value) (inner : UnknownFields) :
    (⟨v :: values, inner⟩ : Composite).plain =
      elementTag.encodeNested v.plain ++ (⟨values, inner⟩ : Composite).plain := by
  simp only [plain, Value.plainAll, List.append_assoc]

theorem Composite.everyUnknown_cons (v : Value) (values : List Value) (inner : UnknownFields) :
    (⟨v :: values, inner⟩ : Composite).everyUnknown =
      v.everyUnknown ++ (⟨values, inner⟩ : Composite).everyUnknown := by
  simp only [everyUnknown, Value.everyUnknownAll, List.append_assoc]

theorem BitString.CanonicalData.exists_data {input : Bytes} (h : CanonicalData input) :
    ∃ data : Bytes,
      (if data.isEmpty then [] else dataTag.encode ++ Varint.encodePrefixed data) = input := by
  cases h with
  | absent => exact ⟨[], rfl⟩
  | @present front payload data hfront hpayload hdata =>
      refine ⟨data, ?_⟩
      rw [if_neg (by simpa using hdata), Tag.eq_encodeNested hfront hpayload, Tag.encodeNested]

theorem BitString.CanonicalCount.exists_nbits {input : Bytes} (h : CanonicalCount input) :
    ∃ nbits : Int32,
      (if nbits = 0 then [] else nbitsTag.encode ++ Varint.encodeInt32 nbits) = input := by
  cases h with
  | absent => exact ⟨0, rfl⟩
  | present nbits hfront hpayload hnbits =>
      refine ⟨nbits, ?_⟩
      rw [if_neg hnbits, (Tag.shortest_iff.mp hfront).1, Varint.encodeInt32,
        Varint.shortest_iff.mp hpayload]

theorem Schema.Canonical.exists_message {s : Schema} {input : Bytes} (h : s.Canonical input) :
    ∃ m : Message s, m.plain = input ∧ ∀ held ∈ m.everyUnknown, held.1.Foreign held.2 := by
  induction h with
  | unset hunknown =>
      obtain ⟨fields, rfl, hforeign⟩ := UnknownFields.canonical_iff.mp hunknown
      exact ⟨Value.leaf none fields, rfl, by simpa [Message.everyUnknown, Value.everyUnknown]⟩
  | scalar hfront hpayload hunknown =>
      obtain ⟨fields, rfl, hforeign⟩ := UnknownFields.canonical_iff.mp hunknown
      obtain ⟨scalar, rfl, rfl, homitted⟩ := Scalar.exists_of_canonical hpayload
      refine ⟨Value.leaf (some scalar) fields, ?_,
        by simpa [Message.everyUnknown, Value.everyUnknown]⟩
      rw [(Tag.shortest_iff.mp hfront).1, ← List.append_assoc]
      show scalar.plain ++ UnknownFields.encode fields = _
      rw [Scalar.plain, if_neg homitted]
  | aggregate hfront hpayload _ hunknown ih =>
      obtain ⟨fields, rfl, hforeign⟩ := UnknownFields.canonical_iff.mp hunknown
      obtain ⟨⟨values, inner⟩, rfl, hinner⟩ := ih
      refine ⟨Value.aggregate values inner fields, ?_, ?_⟩
      · rw [← List.append_assoc, Tag.eq_encodeNested hfront hpayload]
        rfl
      · exact List.forall_mem_append.mpr ⟨hinner, List.forall_mem_map.mpr hforeign⟩
  | elementless hunknown =>
      obtain ⟨fields, rfl, hforeign⟩ := UnknownFields.canonical_iff.mp hunknown
      exact ⟨(⟨[], fields⟩ : Composite), rfl,
        by simpa [Message.everyUnknown, Composite.everyUnknown, Value.everyUnknownAll]⟩
  | element hfront hpayload _ _ ihbody ihrest =>
      obtain ⟨v, rfl, hv⟩ := ihbody
      obtain ⟨⟨values, fields⟩, rfl, hvalues⟩ := ihrest
      refine ⟨(⟨v :: values, fields⟩ : Composite), ?_, ?_⟩
      · rw [← List.append_assoc, Tag.eq_encodeNested hfront hpayload]
        exact Composite.plain_cons v values fields
      · show ∀ held ∈ (⟨v :: values, fields⟩ : Composite).everyUnknown, held.1.Foreign held.2
        rw [Composite.everyUnknown_cons]
        exact List.forall_mem_append.mpr ⟨hv, hvalues⟩
  | bits hdata hcount hunknown =>
      obtain ⟨fields, rfl, hforeign⟩ := UnknownFields.canonical_iff.mp hunknown
      obtain ⟨data, rfl⟩ := hdata.exists_data
      obtain ⟨nbits, rfl⟩ := hcount.exists_nbits
      refine ⟨(⟨data, nbits, fields⟩ : BitString), ?_, by simpa [Message.everyUnknown]⟩
      exact List.append_assoc _ _ _

/-! ## Encodings of messages -/

theorem UnknownFields.canonical_encode {s : Schema} {fields : UnknownFields}
    (h : ∀ held ∈ fields.map (Prod.mk s), held.1.Foreign held.2) : Canonical s (encode fields) :=
  canonical_iff.mpr ⟨fields, rfl, fun field hmem => h (s, field) (List.mem_map_of_mem hmem)⟩

theorem Composite.canonical_plain_of_forall {values : List Value} {inner : UnknownFields}
    (h : ∀ v ∈ values, (∀ held ∈ v.everyUnknown, held.1.Foreign held.2) →
      v.plain.length < 2 ^ 64 → Schema.value.Canonical v.plain)
    (hforeign : ∀ held ∈ (⟨values, inner⟩ : Composite).everyUnknown, held.1.Foreign held.2)
    (hsize : (⟨values, inner⟩ : Composite).plain.length < 2 ^ 64) :
    Schema.composite.Canonical (⟨values, inner⟩ : Composite).plain := by
  induction values with
  | nil =>
      exact .elementless (UnknownFields.canonical_encode hforeign)
  | cons v values ih =>
      rw [everyUnknown_cons, List.forall_mem_append] at hforeign
      rw [plain_cons, Tag.encodeNested, List.append_assoc] at hsize ⊢
      simp only [List.length_append, Varint.length_encodePrefixed, Varint.prefixedSize] at hsize
      have hfirst : Schema.value.Canonical v.plain :=
        h v List.mem_cons_self hforeign.1 (by omega)
      have hothers : Schema.composite.Canonical (⟨values, inner⟩ : Composite).plain :=
        ih (fun v hv => h v (List.mem_cons_of_mem _ hv)) hforeign.2 (by omega)
      exact .element (Tag.shortest_encode (by decide))
        (Varint.shortestPrefixed_iff.mpr ⟨by omega, rfl⟩) hfirst hothers

theorem Value.canonical_plain {v : Value}
    (hforeign : ∀ held ∈ v.everyUnknown, held.1.Foreign held.2)
    (hsize : v.plain.length < 2 ^ 64) : Schema.value.Canonical v.plain := by
  induction v using Value.induction with
  | leaf content unknown =>
      have hunknown : UnknownFields.Canonical .value (UnknownFields.encode unknown) :=
        UnknownFields.canonical_encode hforeign
      cases content with
      | none => exact .unset hunknown
      | some scalar =>
          rw [plain, Option.elim_some, Scalar.plain] at hsize ⊢
          by_cases homitted : scalar.isOmitted
          · rw [if_pos homitted]
            exact .unset hunknown
          · rw [if_neg homitted, List.append_assoc] at hsize ⊢
            simp only [List.length_append] at hsize
            exact .scalar (Tag.shortest_encode (Case.valid_tag _))
              (Scalar.canonical_payload homitted (by omega)) hunknown
  | aggregate values inner unknown ih =>
      obtain ⟨hinner, hown⟩ := List.forall_mem_append.mp hforeign
      have hunknown : UnknownFields.Canonical .value (UnknownFields.encode unknown) :=
        UnknownFields.canonical_encode hown
      have hplain : (aggregate values inner unknown).plain =
          Case.aggregate.tag.encode ++
            (Varint.encodePrefixed (⟨values, inner⟩ : Composite).plain ++
              UnknownFields.encode unknown) := by
        simp only [plain, Tag.encodeNested, Composite.plain, List.append_assoc]
      rw [hplain] at hsize ⊢
      simp only [List.length_append, Varint.length_encodePrefixed, Varint.prefixedSize] at hsize
      exact .aggregate (Tag.shortest_encode (Case.valid_tag _))
        (Varint.shortestPrefixed_iff.mpr ⟨by omega, rfl⟩)
        (Composite.canonical_plain_of_forall ih hinner (by omega)) hunknown

theorem BitString.canonical_plain {b : BitString}
    (hforeign : ∀ held ∈ b.unknown.map (Prod.mk Schema.bits), held.1.Foreign held.2)
    (hsize : b.plain.length < 2 ^ 64) : Schema.bits.Canonical b.plain := by
  unfold plain at hsize ⊢
  rw [List.append_assoc] at hsize ⊢
  simp only [List.length_append] at hsize
  refine .bits ?_ ?_ (UnknownFields.canonical_encode hforeign)
  · by_cases hempty : b.data.isEmpty
    · rw [if_pos hempty]
      exact .absent
    · rw [if_neg hempty] at hsize ⊢
      simp only [List.length_append] at hsize
      exact .present (Tag.shortest_encode (by decide))
        (Varint.shortestPrefixed_encodePrefixed (by omega)) (by simpa using hempty)
  · by_cases hzero : b.nbits = 0
    · rw [if_pos hzero]
      exact .absent
    · rw [if_neg hzero]
      exact .present b.nbits (Tag.shortest_encode (by decide)) (Varint.shortest_encode _) hzero

namespace Message

variable {s : Schema} {m : Message s}

theorem canonical_plain (hforeign : ∀ held ∈ m.everyUnknown, held.1.Foreign held.2)
    (hsize : m.plain.length < 2 ^ 64) : s.Canonical m.plain := by
  cases s with
  | value => exact Value.canonical_plain hforeign hsize
  | composite =>
      exact Composite.canonical_plain_of_forall (fun _ _ => Value.canonical_plain) hforeign hsize
  | bits => exact BitString.canonical_plain hforeign hsize

/-- The grammar is exactly what messages are encoded as. -/
theorem canonical_iff {input : Bytes} (hsize : input.length < 2 ^ 64) :
    s.Canonical input ↔
      ∃ m : Message s, m.plain = input ∧ ∀ held ∈ m.everyUnknown, held.1.Foreign held.2 := by
  constructor
  · intro h
    exact h.exists_message
  · rintro ⟨m, rfl, hforeign⟩
    exact canonical_plain hforeign hsize

/-- Whatever is encoded is canonical, if its unknown fields are some there are. -/
theorem Genuine.canonical_of_encode (h : m.Genuine) {maxDepth : Nat} {bytes : Bytes}
    (hencode : encode maxDepth m = .ok bytes) : s.Canonical bytes := by
  obtain ⟨_, hsize, rfl⟩ := encode_eq_ok_iff.mp hencode
  simp only [Limits.maxEncodedSize] at hsize
  exact (canonical_iff (by omega)).mpr ⟨m, rfl, (h.intact hencode).2⟩

/--
The canonical inputs are those that are encoded as they were decoded.  Decoding tells the message
of a canonical input up to its normal form, and that is encoded to the same bytes.
-/
theorem encode_eq_input_iff_canonical {limits : DecodeLimits} {input : Bytes}
    (hdecode : decode s limits input = .ok m) (hsize : input.length ≤ Limits.maxEncodedSize) :
    encode limits.maxDepth m = .ok input ↔ s.Canonical input := by
  have hintact := intact_of_decode hdecode
  have hlength : input.length < 2 ^ 64 := by
    simp only [Limits.maxEncodedSize] at hsize
    omega
  rw [canonical_iff hlength]
  constructor
  · intro hencode
    obtain ⟨_, _, hbytes⟩ := encode_eq_ok_iff.mp hencode
    exact ⟨m, hbytes.symm, hintact.2⟩
  · rintro ⟨m', rfl, hforeign⟩
    have hintact' : m'.Intact m'.nesting := ⟨Nat.le_refl _, hforeign⟩
    have hnorm : m'.norm = m :=
      (hintact'.merges_plain hlength).unique (decode_eq_ok_iff.mp hdecode).2
    have hplain : m.plain = m'.plain := by rw [← hnorm, plain_norm]
    rw [← hplain] at hsize ⊢
    exact hintact.encode_eq hsize

/-- Two elements and a group with an overlong tag in it, and behind them an overlong length. -/
def overlongUnknown : Bytes :=
  [0x42, 11, 0x0a, 2, 0x30, 1, 0x0a, 0, 0x4b, 0x88, 0, 5, 0x4c, 0x12, 0x81, 0, 0x41]

/-- Only what is unknown may be overlong. -/
theorem encode_eq_input_iff_canonical_overlong_unknown :
    let m : Message .value := Value.aggregate [.leaf (some (.integer 1)) [], .unset]
      [⟨9, .startGroup, [0x88, 0, 5, 0x4c]⟩] [⟨2, .lengthDelimited, [0x81, 0, 0x41]⟩]
    decode .value ⟨2, 17⟩ overlongUnknown = .ok m ∧ encode 2 m = .ok overlongUnknown ∧
      Schema.value.Canonical overlongUnknown ∧ ¬ Schema.value.Canonical overlongVarints := by
  intro m
  have hunknown : decode .value ⟨2, 17⟩ overlongUnknown = .ok m := rfl
  have hencode : encode 2 m = .ok overlongUnknown :=
    encode_eq_ok_iff.mpr ⟨by decide +kernel, by decide +kernel, by decide +kernel⟩
  have hvarints : decode .value ⟨2, 21⟩ overlongVarints =
      .ok (Value.aggregate [.leaf (some (.integer (-1))) [], .unset] []
        [⟨9, .varint, [0x81, 0]⟩]) := rfl
  refine ⟨hunknown, hencode, ?_, ?_⟩
  · exact (encode_eq_input_iff_canonical hunknown (by decide)).mp hencode
  · rw [← encode_eq_input_iff_canonical hvarints (by decide), encode_eq_ok_iff]
    intro hsame
    exact absurd hsame.2.2 (by decide +kernel)

end Message

end TestWire
