import TestWire.Proofs.Message.Concatenation
import TestWire.Proofs.Message.Oneof

/-! # Inputs put together of fields

A chunk is one field as it stands in an input.  Whether it can be taken never depends on the message
that it goes into, so that is told by decoding the chunk on its own.
-/

namespace TestWire

/-- A field as it stands in an input.  Its tag is not zero, nor is it the end of a group. -/
structure Chunk where
  front : Bytes
  field : UnknownField
  spelled : Tag.Spelling front field.tag
  delimited : field.WellFormed

namespace Chunk

def bytes (chunk : Chunk) : Bytes :=
  chunk.front ++ chunk.field.raw

def join (chunks : List Chunk) : Bytes :=
  chunks.flatMap bytes

@[simp] theorem join_nil : join [] = [] := rfl

@[simp] theorem join_cons (chunk : Chunk) (chunks : List Chunk) :
    join (chunk :: chunks) = chunk.bytes ++ join chunks :=
  List.flatMap_cons

@[simp] theorem join_append (chunks others : List Chunk) :
    join (chunks ++ others) = join chunks ++ join others :=
  List.flatMap_append

theorem join_singleton (chunk : Chunk) : join [chunk] = chunk.bytes := by
  simp

theorem length_bytes_le {chunk : Chunk} {chunks : List Chunk} (h : chunk ∈ chunks) :
    chunk.bytes.length ≤ (join chunks).length := by
  obtain ⟨before, behind, rfl⟩ := List.append_of_mem h
  simp only [join_append, join_cons, List.length_append]
  omega

theorem wireType_ne_endGroup (chunk : Chunk) : chunk.field.tag.wireType ≠ .endGroup := by
  obtain ⟨_, hform⟩ := chunk.delimited
  exact hform.wireType_ne_endGroup

theorem covers_join (chunks : List Chunk) :
    FieldRow.Covers ⟨chunks.map field, []⟩ (join chunks) := by
  refine ⟨?_, .inl rfl⟩
  induction chunks with
  | nil => exact .nil []
  | cons chunk chunks ih =>
      simp only [join_cons, bytes, List.append_assoc, List.map_cons]
      exact .cons chunk.spelled chunk.delimited ih

theorem ofInput_join (chunks : List Chunk) :
    FieldRow.ofInput (join chunks) = ⟨chunks.map field, []⟩ :=
  (covers_join chunks).ofInput_eq

end Chunk

/-! ## Merging chunks -/

namespace Merged

variable {μ : Type} {step : Step μ} {form : Tag → μ → Bytes → μ → Prop}

theorem makes_singleton_iff {field : UnknownField} {m m' : μ} :
    Makes form m [field] m' ↔ form field.tag m field.raw m' := by
  refine ⟨fun h => ?_, fun h => .cons h (.nil m')⟩
  cases h with
  | cons hfield hrest =>
      cases hrest
      exact hfield

theorem Makes.fields_join {chunks : List Chunk} {m m' : μ}
    (h : Makes form m (chunks.map Chunk.field) m') : Fields form m (Chunk.join chunks) m' := by
  induction chunks generalizing m with
  | nil =>
      cases h
      exact .done _
  | cons chunk chunks ih =>
      cases h with
      | cons hfield hrest =>
          rw [Chunk.join_cons, Chunk.bytes, List.append_assoc]
          exact .field chunk.spelled chunk.wireType_ne_endGroup hfield (ih hrest)

/-- When no field depends on the message it goes into, a list of them is taken field by field. -/
theorem exists_makes_iff
    (htransfer : ∀ {tag m payload m'}, form tag m payload m' → ∀ n, ∃ n', form tag n payload n')
    {fields : List UnknownField} {m : μ} (n : μ) :
    (∃ m', Makes form m fields m') ↔ ∀ field ∈ fields, ∃ n', form field.tag n field.raw n' := by
  refine ⟨?_, fun h => ?_⟩
  · -- Every field was taken by some message on the way, and so `n` takes it.
    rintro ⟨m', h⟩
    induction h with
    | nil _ => simp
    | cons hfield _ ih => exact List.forall_mem_cons.mpr ⟨htransfer hfield n, ih⟩
  · induction fields generalizing m with
    | nil => exact ⟨m, .nil m⟩
    | cons field fields ih =>
        obtain ⟨⟨_, hfield⟩, hfields⟩ := List.forall_mem_cons.mp h
        obtain ⟨m₁, hfirst⟩ := htransfer hfield m
        obtain ⟨m', hrest⟩ := ih (m := m₁) hfields
        exact ⟨m', .cons hfirst hrest⟩

end Merged

section

variable {left : Nat} {tag : Tag} {payload : Bytes}

theorem Value.FieldForm.transfer {merges : Composite → Bytes → Composite → Prop} {v v' : Value}
    (hmerges : ∀ {c body c'}, merges c body c' → ∀ d, ∃ d', merges d body d')
    (h : FieldForm left merges tag v payload v') (w : Value) :
    ∃ w', FieldForm left merges tag w payload w' := by
  cases h with
  | scalar _ hform => exact ⟨_, .scalar w hform⟩
  | aggregate _ hprefixed hbody =>
      obtain ⟨c, hc⟩ := hmerges hbody (w.composite?.getD {})
      exact ⟨_, .aggregate w hprefixed hc⟩
  | unknown _ hfield => exact ⟨_, .unknown w hfield⟩

theorem BitString.FieldForm.transfer {b b' : BitString} (h : FieldForm left tag b payload b')
    (d : BitString) : ∃ d', FieldForm left tag d payload d' := by
  cases h with
  | data _ hprefixed => exact ⟨_, .data d hprefixed⟩
  | nbits _ hword => exact ⟨_, .nbits d hword⟩
  | unknown _ hfield => exact ⟨_, .unknown d hfield⟩

end

namespace Message

variable {s : Schema}

theorem FieldForm.transfer {left : Nat} {tag : Tag} {payload : Bytes} {m m' : Message s}
    (h : FieldForm left tag m payload m') (n : Message s) :
    ∃ n', FieldForm left tag n payload n' := by
  cases s with
  | value =>
      cases left with
      | zero => exact Value.FieldForm.transfer (fun hfalse => hfalse.elim) h n
      | succ left =>
          refine Value.FieldForm.transfer (fun hbody d => ?_) h n
          obtain ⟨part, _, hpart⟩ := hbody.exists_part
          exact ⟨_, hpart d⟩
  | composite =>
      cases left <;>
      · obtain ⟨part, _, hpart⟩ := Composite.FieldForm.exists_part h
        exact ⟨_, hpart n⟩
  | bits => exact BitString.FieldForm.transfer h n

theorem merges_join_iff {left : Nat} {chunks : List Chunk} {m m' : Message s} :
    Merges left m (Chunk.join chunks) m' ↔
      Merged.Makes (FieldForm left) m (chunks.map Chunk.field) m' := by
  refine ⟨fun h => ?_, fun h => merges_iff_fields.mpr h.fields_join⟩
  have hmakes := h.covers_and_makes.2
  rwa [Chunk.ofInput_join] at hmakes

theorem decode_bytes_eq_ok_iff {limits : DecodeLimits} {chunk : Chunk} {m : Message s} :
    decode s limits chunk.bytes = .ok m ↔
      chunk.bytes.length ≤ limits.maxSize ∧
        FieldForm limits.maxDepth chunk.field.tag (empty s) chunk.field.raw m := by
  rw [decode_eq_ok_iff, ← Chunk.join_singleton, merges_join_iff, List.map_singleton,
    Merged.makes_singleton_iff]

end Message

end TestWire
