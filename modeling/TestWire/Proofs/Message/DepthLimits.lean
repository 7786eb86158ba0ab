import TestWire.Proofs.Message.Relay

/-! # The depth limits of both directions

Encoding takes unknown fields as the bytes they are, decoding also counts the groups inside them.
So a message with deep groups can be encoded within a limit that refuses to read it back.
-/

namespace TestWire

namespace Message

variable {s : Schema}

theorem Merges.unique {left left' : Nat} {m m' m'' : Message s} {input : Bytes}
    (h : Merges left m input m') (h' : Merges left' m input m'') : m' = m'' := by
  have hfirst := mergeInput_eq_ok_iff.mpr (h.mono (Nat.le_max_left left left'))
  have hsecond := mergeInput_eq_ok_iff.mpr (h'.mono (Nat.le_max_right left left'))
  rw [hfirst] at hsecond
  cases hsecond
  rfl

section

variable {m : Message s} {maxDepth : Nat} {bytes : Bytes}

/-- A message that is encoded within some levels is encoded within those its messages take. -/
theorem encode_ok_iff_depth_le (hencode : encode maxDepth m = .ok bytes) {limit : Nat} :
    encode limit m = .ok bytes ↔ m.depth ≤ limit := by
  rcases encode_eq_ok_iff.mp hencode with ⟨hnone, hencoded, rfl⟩
  have hrefused := (violations_eq_nil_iff.mp hnone).2
  rw [encode_eq_ok_iff, violations_eq_nil_iff]
  constructor
  · intro h
    exact h.1.1
  · intro hdepth
    exact ⟨⟨hdepth, hrefused⟩, hencoded, rfl⟩

/-- An encoding is decoded within the levels that all of it takes, its unknown groups included. -/
theorem decode_ok_iff_nesting_le (hgenuine : m.Genuine) (hencode : encode maxDepth m = .ok bytes)
    {limit maxSize : Nat} (hsize : bytes.length ≤ maxSize) :
    (∃ m', decode s ⟨limit, maxSize⟩ bytes = .ok m') ↔ m.nesting ≤ limit := by
  rcases encode_eq_ok_iff.mp hencode with ⟨_, hencoded, rfl⟩
  have hintact := hgenuine.intact hencode
  have hlength : m.plain.length < 2 ^ 64 := by
    simp only [Limits.maxEncodedSize] at hencoded
    omega
  constructor
  · intro h
    rcases h with ⟨m', hdecode⟩
    have hnorm : m.norm = m' :=
      (hintact.merges_plain hlength).unique (decode_eq_ok_iff.mp hdecode).2
    have hlevels := (intact_of_decode hdecode).1
    rwa [← hnorm, levels_norm] at hlevels
  · intro hnesting
    have hlimit : m.Intact limit := ⟨hnesting, hintact.2⟩
    exact ⟨m.norm, decode_eq_ok_iff.mpr ⟨hsize, hlimit.merges_plain hlength⟩⟩

/--
What an encoding is decoded within, the message is encoded within.  The limits of the two directions
agree unless a limit covers the messages and not the groups inside their unknown fields.
-/
theorem limits_agree_iff (hgenuine : m.Genuine) (hencode : encode maxDepth m = .ok bytes)
    {maxSize : Nat} (hsize : bytes.length ≤ maxSize) (limit : Nat) :
    ((∃ m', decode s ⟨limit, maxSize⟩ bytes = .ok m') → encode limit m = .ok bytes) ∧
    (((∃ bytes', encode limit m = .ok bytes') ↔ ∃ m', decode s ⟨limit, maxSize⟩ bytes = .ok m') ↔
      ¬ (m.depth ≤ limit ∧ limit < m.nesting)) := by
  have hle := m.depth_le_nesting
  have hdepth : (∃ bytes', encode limit m = .ok bytes') ↔ m.depth ≤ limit := by
    constructor
    · intro h
      rcases h with ⟨bytes', hencode'⟩
      exact (encode_ok_iff_depth_le hencode').mp hencode'
    · intro h
      exact ⟨bytes, (encode_ok_iff_depth_le hencode).mpr h⟩
  rw [hdepth, encode_ok_iff_depth_le hencode, decode_ok_iff_nesting_le hgenuine hencode hsize]
  constructor
  · intro hnesting
    omega
  · omega

end

/-- Encoded within two levels, the two groups of this message are only read back within three. -/
theorem limits_agree_iff_grouped_aggregate :
    encode 2 groupedAggregate = .ok groupedAggregate.plain ∧
    (¬ ∃ m, decode .value ⟨2, 28⟩ groupedAggregate.plain = .ok m) ∧
    ∃ m, decode .value ⟨3, 28⟩ groupedAggregate.plain = .ok m := by
  have hencode : encode 2 groupedAggregate = .ok groupedAggregate.plain :=
    encode_eq_ok_iff.mpr ⟨rfl, by decide +kernel, rfl⟩
  have hsize : groupedAggregate.plain.length ≤ 28 := by decide +kernel
  have hdepth : groupedAggregate.depth = 2 := by decide +kernel
  have hnesting : groupedAggregate.nesting = 3 := by decide +kernel
  have hagree := limits_agree_iff genuine_groupedAggregate hencode hsize
  rw [hdepth, hnesting] at hagree
  have hencode' : encode 3 groupedAggregate = .ok groupedAggregate.plain :=
    encode_eq_ok_iff.mpr ⟨rfl, by decide +kernel, rfl⟩
  have htwo := (hagree 2).2
  have hthree := (hagree 3).2
  refine ⟨hencode, fun hdecode => ?_, ?_⟩
  · exact htwo.mp ⟨fun _ => hdecode, fun _ => ⟨_, hencode⟩⟩ (by omega)
  · exact (hthree.mpr (by omega)).mp ⟨_, hencode'⟩

def grouped : Message .value :=
  Value.leaf none [⟨9, .startGroup, [0x4c]⟩]

/-- A group is read within one level, written within none, and not read back within none. -/
theorem limits_disagree_grouped :
    decode .value ⟨1, 2⟩ [0x4b, 0x4c] = .ok grouped ∧
    encode 0 grouped = .ok [0x4b, 0x4c] ∧
    decode .value ⟨0, 2⟩ [0x4b, 0x4c] = .error (.depthExceeded 0) ∧
    ¬ ((∃ bytes, encode 0 grouped = .ok bytes) ↔
      ∃ m, decode .value ⟨0, 2⟩ [0x4b, 0x4c] = .ok m) := by
  have hread : decode .value ⟨1, 2⟩ [0x4b, 0x4c] = .ok grouped := rfl
  have hencode : encode 0 grouped = .ok [0x4b, 0x4c] :=
    encode_eq_ok_iff.mpr ⟨rfl, by decide +kernel, by decide +kernel⟩
  have hdecode : decode .value ⟨0, 2⟩ [0x4b, 0x4c] = .error (.depthExceeded 0) := rfl
  refine ⟨hread, hencode, hdecode, fun hagree => ?_⟩
  rcases hagree.mp ⟨_, hencode⟩ with ⟨m, hm⟩
  rw [hdecode] at hm
  cases hm

end Message

end TestWire
