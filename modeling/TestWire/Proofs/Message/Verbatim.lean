import TestWire.Proofs.Message.FieldRow
import TestWire.Proofs.Message.TwoPass

/-! # Unknown fields pass through verbatim -/

namespace TestWire

/-! ## Encoding without unknown fields -/

theorem Value.plain_eq_append (v : Value) :
    v.plain = (v.withUnknown []).plain ++ UnknownFields.encode v.unknown := by
  cases v <;> simp [plain, withUnknown, unknown]

theorem Composite.plain_eq_append (c : Composite) :
    c.plain = ({ c with unknown := [] } : Composite).plain ++ UnknownFields.encode c.unknown := by
  simp [plain]

theorem BitString.plain_eq_append (b : BitString) :
    b.plain = ({ b with unknown := [] } : BitString).plain ++ UnknownFields.encode b.unknown := by
  simp [plain]

namespace Message

variable {s : Schema}

theorem plain_eq_append (m : Message s) :
    m.plain = (m.withUnknown []).plain ++ UnknownFields.encode m.unknown := by
  cases s with
  | value => exact Value.plain_eq_append m
  | composite => exact Composite.plain_eq_append m
  | bits => exact BitString.plain_eq_append m

theorem violations_eq_append (max : Nat) (m : Message s) :
    m.violations max = (m.withUnknown []).violations max ++ s.refusals m.unknown := by
  cases s with
  | value =>
      cases m with
      | leaf content unknown => rfl
      | aggregate values inner unknown =>
          cases max <;> simp [violations, withUnknown, Message.unknown, Value.violations,
            Value.withUnknown, Value.unknown, Schema.refusals]
  | composite => simp [violations, withUnknown, unknown, Composite.violations, Schema.refusals]
  | bits => rfl

/-- What is encoded is encoded without its unknown fields as well, and they are all it loses. -/
theorem encode_withUnknown_nil {m : Message s} {maxDepth : Nat} {bytes : Bytes}
    (h : encode maxDepth m = .ok bytes) :
    encode maxDepth (m.withUnknown []) = .ok (m.withUnknown []).plain ∧
      bytes = (m.withUnknown []).plain ++ UnknownFields.encode m.unknown := by
  obtain ⟨hnone, hsize, rfl⟩ := encode_eq_ok_iff.mp h
  rw [violations_eq_append, List.append_eq_nil_iff] at hnone
  rw [plain_eq_append, List.length_append] at hsize
  exact ⟨encode_eq_ok_iff.mpr ⟨hnone.1, by omega, rfl⟩, m.plain_eq_append⟩

theorem unknown_of_decode {limits : DecodeLimits} {input : Bytes} {m : Message s}
    (h : decode s limits input = .ok m) :
    m.unknown = (FieldRow.ofInput input).fields.filter fun field => !s.knows field.tag := by
  obtain ⟨_, hmakes⟩ := (decode_eq_ok_iff.mp h).2.covers_and_makes
  have hempty : (empty s).unknown = [] := by cases s <;> rfl
  rw [unknown_of_makes hmakes, hempty, List.nil_append]

/--
What was decoded is encoded as its known part, and behind it the fields at the top level of the
input that the schema does not know: all of them and in their order, each with the shortest varint
of its tag and then the bytes that stood behind its tag.
-/
theorem encode_keeps_unknown {limits : DecodeLimits} {input bytes : Bytes} {m : Message s}
    (hdecode : decode s limits input = .ok m) (hencode : encode limits.maxDepth m = .ok bytes) :
    let foreign := (FieldRow.ofInput input).fields.filter fun field => !s.knows field.tag
    (FieldRow.ofInput input).Covers input ∧
    (∀ field ∈ foreign, Varint.Shortest field.tag.encode field.tag.raw.toNat) ∧
    ∃ known, encode limits.maxDepth (m.withUnknown []) = .ok known ∧
      bytes = known ++ foreign.flatMap fun field => field.tag.encode ++ field.raw := by
  intro foreign
  obtain ⟨hcovers, _⟩ := (decode_eq_ok_iff.mp hdecode).2.covers_and_makes
  obtain ⟨hknown, hbytes⟩ := encode_withUnknown_nil hencode
  refine ⟨hcovers, fun field _ => Varint.shortest_encode field.tag.raw, _, hknown, ?_⟩
  rw [hbytes, unknown_of_decode hdecode]
  rfl

def interleaved : Bytes :=
  [0xc8, 0, 0x81, 0, 0x30, 1, 0x4b, 8, 0x80, 0, 0x4c, 0x10, 1, 0x12, 0x81, 0, 0x41]

/-- The boolean comes first, and the unknown fields behind it as they were but for one tag. -/
theorem encode_keeps_unknown_interleaved :
    let foreign : List UnknownField := [⟨9, .varint, [0x81, 0]⟩,
      ⟨9, .startGroup, [8, 0x80, 0, 0x4c]⟩, ⟨2, .lengthDelimited, [0x81, 0, 0x41]⟩]
    let m : Message .value := Value.leaf (some (.boolean true)) foreign
    let bytes : Bytes := [0x10, 1, 0x48, 0x81, 0, 0x4b, 8, 0x80, 0, 0x4c, 0x12, 0x81, 0, 0x41]
    decode .value ⟨1, 17⟩ interleaved = .ok m ∧ encode 1 m = .ok bytes ∧
      ∃ known, encode 1 (m.withUnknown []) = .ok known ∧
        bytes = known ++ foreign.flatMap fun field => field.tag.encode ++ field.raw := by
  intro foreign m bytes
  have hdecode : decode .value ⟨1, 17⟩ interleaved = .ok m := rfl
  have hencode : encode 1 m = .ok bytes :=
    encode_eq_ok_iff.mpr ⟨rfl, by decide +kernel, by decide +kernel⟩
  have hforeign : ((FieldRow.ofInput interleaved).fields.filter fun field =>
      !Schema.value.knows field.tag) = foreign := rfl
  obtain ⟨_, _, hkeeps⟩ := encode_keeps_unknown hdecode hencode
  rw [hforeign] at hkeeps
  exact ⟨hdecode, hencode, hkeeps⟩

end Message

end TestWire
