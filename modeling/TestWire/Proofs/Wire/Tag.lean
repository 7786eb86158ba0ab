import TestWire.Proofs.Wire.Reader
import TestWire.Wire.Tag

/-! # Tags as they are spelled -/

namespace TestWire

namespace Tag

@[simp] theorem toNat_raw (tag : Tag) :
    tag.raw.toNat = 8 * tag.number.toNat + tag.wireType.code := by
  have hnumber := tag.number.toNat_lt
  have hcode := tag.wireType.code_lt
  rw [raw, UInt64.toNat_ofNat_of_lt' (by simp only [UInt64.size]; omega)]

/-- The tags that can be read. -/
def Valid (tag : Tag) : Prop :=
  tag.number.toNat ≤ Limits.maxFieldNumber ∧ (tag.number = 0 → tag.wireType = .endGroup)

instance (tag : Tag) : Decidable tag.Valid :=
  inferInstanceAs (Decidable (_ ∧ _))

/-- The bytes that spell a tag. -/
structure Spelling (front : Bytes) (tag : Tag) : Prop where
  varint : Varint.Spelling Limits.maxVarintBytes front tag.raw.toNat
  valid : tag.Valid

theorem raw_ne_zero {tag : Tag} (h : tag.Valid) : tag.raw ≠ 0 := by
  intro hzero
  have hraw := tag.toNat_raw
  simp only [hzero, UInt64.toNat_zero] at hraw
  have hnumber : tag.number = 0 := UInt32.toNat_inj.mp (by simp only [UInt32.toNat_zero]; omega)
  rw [h.2 hnumber] at hraw
  simp [WireType.code] at hraw

theorem ofRaw_raw {tag : Tag} (h : tag.Valid) : ofRaw tag.raw = .ok (some tag) := by
  have hraw := tag.toNat_raw
  have hcode := tag.wireType.code_lt
  have hnumber := h.1
  have hmod : tag.raw.toNat % 8 = tag.wireType.code := by omega
  have hdiv : tag.raw.toNat / 8 = tag.number.toNat := by omega
  have hend : ¬ (tag.raw.toNat < 8 ∧ tag.wireType ≠ .endGroup) := by
    intro hbad
    have hzero : tag.number = 0 := UInt32.toNat_inj.mp (by simp only [UInt32.toNat_zero]; omega)
    exact hbad.2 (h.2 hzero)
  simp only [Limits.maxFieldNumber] at hnumber
  rw [ofRaw, if_neg (raw_ne_zero h), if_neg (by omega), hmod, WireType.ofCode?_code]
  simp only [if_neg hend, hdiv, UInt32.ofNat_toNat]

theorem raw_eq_of_ofRaw {raw : UInt64} {tag : Tag} (h : ofRaw raw = .ok (some tag)) :
    tag.raw = raw ∧ tag.Valid := by
  unfold ofRaw at h
  split at h
  · cases h
  · split at h
    · cases h
    · next hlt =>
        split at h
        · cases h
        · next wireType hcode =>
            split at h
            · cases h
            · next hend =>
                cases h
                have hmod : raw.toNat % 8 = wireType.code := WireType.ofCode?_eq_some_iff.mp hcode
                have hnumber : (UInt32.ofNat (raw.toNat / 8)).toNat = raw.toNat / 8 := by
                  rw [UInt32.toNat_ofNat']
                  omega
                have hraw := toNat_raw ⟨UInt32.ofNat (raw.toNat / 8), wireType⟩
                simp only [hnumber] at hraw
                refine ⟨UInt64.toNat_inj.mp (by omega), ?_, ?_⟩
                · simp only [hnumber, Limits.maxFieldNumber]
                  omega
                · intro hzero
                  simp only at hzero
                  simp only [hzero, UInt32.toNat_zero] at hnumber
                  by_cases hwire : wireType = .endGroup
                  · exact hwire
                  · exact (hend ⟨by omega, hwire⟩).elim

theorem ofRaw_eq_none_iff {raw : UInt64} : ofRaw raw = .ok none ↔ raw = 0 := by
  constructor
  · intro h
    unfold ofRaw at h
    split at h
    · next hzero => exact hzero
    · split at h
      · cases h
      · split at h
        · cases h
        · split at h <;> cases h
  · intro h
    simp [ofRaw, h]

theorem read_reads : Tag.read.Reads fun front tag? =>
    match tag? with
    | none => Varint.Spelling Limits.maxVarintBytes front 0
    | some tag => Spelling front tag := by
  refine ((Reader.varint_reads "tag").bind fun raw => Reader.Reads.ofExcept (ofRaw raw)).congr
    fun front tag? => ?_
  constructor
  · intro h
    obtain ⟨raw, first, _, rfl, hspelling, rfl, hraw⟩ := h
    rw [List.append_nil]
    cases tag? with
    | none => simpa [ofRaw_eq_none_iff.mp hraw] using hspelling
    | some tag =>
        obtain ⟨rfl, hvalid⟩ := raw_eq_of_ofRaw hraw
        exact ⟨hspelling, hvalid⟩
  · intro h
    cases tag? with
    | none => exact ⟨0, front, [], by simp, by simpa using h, rfl, ofRaw_eq_none_iff.mpr rfl⟩
    | some tag => exact ⟨tag.raw, front, [], by simp, h.varint, rfl, ofRaw_raw h.valid⟩

theorem Spelling.read_append {front : Bytes} {tag : Tag} (h : Spelling front tag) (rest : Bytes) :
    Tag.read (front ++ rest) = .ok (some tag) rest :=
  (read_reads _ _ _).mpr ⟨front, rfl, h⟩

theorem Spelling.length_pos {front : Bytes} {tag : Tag} (h : Spelling front tag) :
    0 < front.length :=
  h.varint.length_pos

theorem Spelling.size_le {front : Bytes} {tag : Tag} (h : Spelling front tag) :
    tag.size ≤ front.length := by
  have hle := h.varint.size_le
  rwa [UInt64.ofNat_toNat] at hle

theorem Spelling.isEmpty_append {front : Bytes} {tag : Tag} (h : Spelling front tag)
    (rest : Bytes) : (front ++ rest).isEmpty = false := by
  have hpos := h.length_pos
  cases front with
  | nil => simp at hpos
  | cons => rfl

theorem spelling_encode {tag : Tag} (h : tag.Valid) : Spelling tag.encode tag :=
  ⟨Varint.spelling_encode tag.raw, h⟩

end Tag

end TestWire
