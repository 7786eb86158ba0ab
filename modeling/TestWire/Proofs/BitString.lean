import TestWire.Validation
import Mathlib.Data.Nat.Bitwise

/-! # Packed bits

Bits that are pushed one at a time always leave data that holds them and less than a byte of zeros
behind.  No other data does, so whatever packs the same bits is the same data.
-/

namespace TestWire

namespace BitString

/-- The eight bits of a byte, the most significant one first. -/
def byteBits (byte : UInt8) : List Bool :=
  (List.range 8).map (byteBit byte)

/-- The byte in which only the bit at an index is set. -/
def mask (index : Nat) : UInt8 :=
  0x80 >>> UInt8.ofNat index

/-- Data that holds the bits, and in its last byte nothing but zeros behind them. -/
def Packs (data : Bytes) (bits : List Bool) : Prop :=
  ∃ padding < 8, unpackBytes data = bits ++ List.replicate padding false

def setLast (index : Nat) (data : Bytes) : Bytes :=
  data.modify (data.length - 1) (· ||| mask index)

/-- One more bit behind the `count` bits that the data holds. -/
def push : Bytes × Nat → Bool → Bytes × Nat
  | (data, count), bit =>
      let opened := if count % 8 = 0 then data ++ [0] else data
      (if bit then setLast (count % 8) opened else opened, count + 1)

def clearLow (padding : Nat) (byte : UInt8) : UInt8 :=
  byte >>> UInt8.ofNat padding <<< UInt8.ofNat padding

/-- The lowest bits of the last byte cleared, and all other bytes as they are. -/
def clearPadding (padding : Nat) : Bytes → Bytes
  | [] => []
  | [byte] => [clearLow padding byte]
  | byte :: data => byte :: clearPadding padding data

/-! ## The bits of a byte -/

@[simp]
theorem length_byteBits (byte : UInt8) : (byteBits byte).length = 8 := by
  simp [byteBits]

@[simp]
theorem getElem_byteBits {byte : UInt8} {i : Nat} (hi : i < (byteBits byte).length) :
    (byteBits byte)[i] = byteBit byte i := by
  simp [byteBits]

theorem byteBits_eq {byte : UInt8} {bits : List Bool} (hlength : bits.length = 8)
    (h : ∀ i, i < 8 → (hi : i < bits.length) → byteBit byte i = bits[i]) :
    byteBits byte = bits := by
  apply List.ext_getElem (by rw [length_byteBits, hlength])
  intro i hleft hright
  rw [getElem_byteBits]
  exact h i (hlength ▸ hright) hright

theorem byteBits_injective {byte other : UInt8} (h : byteBits byte = byteBits other) :
    byte = other := by
  apply UInt8.toNat_inj.mp
  apply Nat.eq_of_testBit_eq
  intro i
  by_cases hi : i < 8
  · have hbit : byteBit byte (7 - i) = byteBit other (7 - i) := by
      rw [← getElem_byteBits (by simp; omega), ← getElem_byteBits (by simp; omega)]
      simp only [h]
    simpa [byteBit, show 7 - (7 - i) = i by omega] using hbit
  · have hpow : 2 ^ 8 ≤ 2 ^ i := Nat.pow_le_pow_right (by decide) (by omega)
    rw [Nat.testBit_lt_two_pow (Nat.lt_of_lt_of_le byte.toNat_lt hpow),
      Nat.testBit_lt_two_pow (Nat.lt_of_lt_of_le other.toNat_lt hpow)]

theorem toNat_mask {index : Nat} (hi : index < 8) : (mask index).toNat = 2 ^ (7 - index) := by
  have hall : ∀ index : Fin 8, (mask index).toNat = 2 ^ (7 - index.val) := by decide
  exact hall ⟨index, hi⟩

theorem byteBit_eq_mask {byte : UInt8} {index : Nat} (hi : index < 8) :
    byteBit byte index = (byte &&& mask index != 0) := by
  have hand : (byte &&& mask index).toNat =
      (byteBit byte index).toNat * 2 ^ (7 - index) := by
    rw [UInt8.toNat_and, toNat_mask hi, Nat.and_two_pow]
    rfl
  have hpow := Nat.two_pow_pos (7 - index)
  rw [Bool.eq_iff_iff, bne_iff_ne, ne_eq, ← UInt8.toNat_inj, hand]
  cases byteBit byte index <;> simp

theorem byteBits_zero : byteBits 0 = List.replicate 8 false := by
  decide

theorem byteBits_or_mask {byte : UInt8} {index : Nat} (hindex : index < 8) :
    byteBits (byte ||| mask index) = (byteBits byte).set index true := by
  apply byteBits_eq (by simp)
  intro i hlt hi
  rw [List.getElem_set, getElem_byteBits, byteBit, UInt8.toNat_or, Nat.testBit_or,
    toNat_mask hindex, Nat.testBit_two_pow]
  by_cases heq : index = i
  · simp [heq]
  · have hne : 7 - index ≠ 7 - i := by omega
    simp [heq, hne, byteBit]

theorem byteBit_clearLow {byte : UInt8} {padding i : Nat} (hp : padding < 8) (hi : i < 8) :
    byteBit (clearLow padding byte) i = (decide (i < 8 - padding) && byteBit byte i) := by
  have hshift : (UInt8.ofNat padding).toNat % 8 = padding := by
    rw [UInt8.toNat_ofNat']
    omega
  rw [byteBit, clearLow, UInt8.toNat_shiftLeft, UInt8.toNat_shiftRight, hshift,
    Nat.testBit_mod_two_pow, Nat.testBit_shiftLeft, Nat.testBit_shiftRight]
  by_cases hkept : i < 8 - padding
  · have hbyte : 7 - i < 8 := by omega
    have hhigh : padding ≤ 7 - i := by omega
    have hindex : padding + (7 - i - padding) = 7 - i := by omega
    rw [hindex]
    simp [hkept, hbyte, hhigh, byteBit]
  · have hlow : ¬ padding ≤ 7 - i := by omega
    simp [hkept, hlow]

theorem byteBits_clearLow {byte : UInt8} {padding : Nat} (hp : padding < 8) :
    byteBits (clearLow padding byte) =
      (byteBits byte).take (8 - padding) ++ List.replicate padding false := by
  have hkept : ((byteBits byte).take (8 - padding)).length = 8 - padding := by simp
  apply byteBits_eq (by simp; omega)
  intro i hlt hi
  rw [byteBit_clearLow hp hlt, List.getElem_append]
  by_cases hcount : i < 8 - padding
  · simp [hkept, hcount]
  · simp [hkept, hcount]

theorem testBit_foldl (bits : List Bool) {i count : Nat} (hi : i < count) :
    ((List.range count).foldl (fun n i => 2 * n + (bits.getD i false).toNat) 0).testBit
      (count - 1 - i) = bits.getD i false := by
  induction count with
  | zero => omega
  | succ count ih =>
      rw [List.range_succ, List.foldl_append, List.foldl_cons, List.foldl_nil, ← Nat.bit_val]
      by_cases hlast : i = count
      · subst hlast
        rw [show i + 1 - 1 - i = 0 by omega, Nat.testBit_bit_zero]
      · rw [show count + 1 - 1 - i = (count - 1 - i) + 1 by omega, Nat.testBit_bit_succ]
        exact ih (by omega)

theorem byteBit_packByte (bits : List Bool) {i : Nat} (hi : i < 8) :
    byteBit (packByte bits) i = bits.getD i false := by
  have hbyte : 7 - i < 8 := by omega
  rw [byteBit, packByte, UInt8.toNat_ofNat', Nat.testBit_mod_two_pow, testBit_foldl bits hi,
    decide_eq_true hbyte, Bool.true_and]

theorem byteBits_packByte {bits : List Bool} (hbits : bits.length ≤ 8) :
    byteBits (packByte bits) = bits ++ List.replicate (8 - bits.length) false := by
  apply byteBits_eq (by simp; omega)
  intro i hlt hi
  rw [byteBit_packByte bits hlt, List.getElem_append]
  by_cases hcount : i < bits.length
  · simp [hcount]
  · simp [hcount]

/-! ## The bits of data -/

theorem unpackBytes_cons (byte : UInt8) (data : Bytes) :
    unpackBytes (byte :: data) = byteBits byte ++ unpackBytes data :=
  List.flatMap_cons

theorem unpackBytes_append (data other : Bytes) :
    unpackBytes (data ++ other) = unpackBytes data ++ unpackBytes other :=
  List.flatMap_append

@[simp]
theorem length_unpackBytes (data : Bytes) : (unpackBytes data).length = 8 * data.length := by
  induction data with
  | nil => rfl
  | cons byte data ih =>
      rw [unpackBytes_cons, List.length_append, length_byteBits, ih, List.length_cons]
      omega

theorem unpackBytes_injective {data other : Bytes} (h : unpackBytes data = unpackBytes other) :
    data = other := by
  induction data generalizing other with
  | nil =>
      have hlength : 0 = 8 * other.length := by
        rw [← length_unpackBytes other, ← h]
        rfl
      exact (List.length_eq_zero_iff.mp (by omega)).symm
  | cons byte data ih =>
      cases other with
      | nil => simpa using congrArg List.length h
      | cons byte' other =>
          rw [unpackBytes_cons, unpackBytes_cons] at h
          obtain ⟨hbyte, hdata⟩ := List.append_inj h (by simp)
          rw [byteBits_injective hbyte, ih hdata]

theorem getElem?_unpackBytes (data : Bytes) (i : Nat) :
    (unpackBytes data)[i]? = data[i / 8]?.map (byteBit · (i % 8)) := by
  induction data generalizing i with
  | nil => rfl
  | cons byte data ih =>
      rw [unpackBytes_cons, List.getElem?_append, length_byteBits]
      by_cases hi : i < 8
      · rw [if_pos hi, Nat.div_eq_of_lt hi, Nat.mod_eq_of_lt hi]
        simp [hi]
      · obtain ⟨i, rfl⟩ := Nat.exists_eq_add_of_le (Nat.le_of_not_lt hi)
        rw [if_neg hi, Nat.add_sub_cancel_left, ih, Nat.add_div_left i (by decide),
          Nat.add_mod_left, List.getElem?_cons_succ]

theorem unpackBytes_modify (data : Bytes) {place index : Nat} (hplace : place < data.length)
    (hindex : index < 8) :
    unpackBytes (data.modify place (· ||| mask index)) =
      (unpackBytes data).set (8 * place + index) true := by
  induction data generalizing place with
  | nil => simp at hplace
  | cons byte data ih =>
      cases place with
      | zero =>
          rw [List.modify_zero_cons, unpackBytes_cons, unpackBytes_cons, byteBits_or_mask hindex,
            List.set_append_left _ _ (by simp; omega)]
          simp
      | succ place =>
          rw [List.modify_succ_cons, unpackBytes_cons, unpackBytes_cons,
            ih (by simpa using hplace), List.set_append_right _ _ (by simp; omega)]
          congr 2
          simp
          omega

theorem unpackBytes_clearPadding {data : Bytes} {padding : Nat} (hp : padding < 8)
    (hdata : padding ≤ 8 * data.length) :
    unpackBytes (clearPadding padding data) =
      (unpackBytes data).take (8 * data.length - padding) ++ List.replicate padding false := by
  induction data using clearPadding.induct with
  | case1 =>
      obtain rfl : padding = 0 := by simpa using hdata
      rfl
  | case2 byte =>
      have hnil : unpackBytes [] = [] := rfl
      rw [clearPadding, unpackBytes_cons, unpackBytes_cons, byteBits_clearLow hp, hnil,
        List.append_nil, List.append_nil]
      rfl
  | case3 byte data hne ih =>
      have hpos : 0 < data.length := List.length_pos_iff.mpr hne
      have htake : 8 * (byte :: data).length - padding =
          (byteBits byte).length + (8 * data.length - padding) := by
        rw [length_byteBits, List.length_cons]
        omega
      rw [clearPadding.eq_3 _ _ _ hne, unpackBytes_cons, unpackBytes_cons, ih (by omega), htake,
        List.take_length_add_append, List.append_assoc]

/-! ## The bits that data packs -/

theorem eight_mul_length {data : Bytes} {bits : List Bool} {padding : Nat}
    (h : unpackBytes data = bits ++ List.replicate padding false) :
    8 * data.length = bits.length + padding := by
  rw [← length_unpackBytes, h, List.length_append, List.length_replicate]

theorem Packs.length_eq {data : Bytes} {bits : List Bool} (h : Packs data bits) :
    data.length = (bits.length + 7) / 8 := by
  obtain ⟨padding, hp, h⟩ := h
  have hlength := eight_mul_length h
  omega

theorem Packs.unique {data other : Bytes} {bits : List Bool} (h : Packs data bits)
    (hother : Packs other bits) : data = other := by
  have hsame : data.length = other.length := by rw [h.length_eq, hother.length_eq]
  obtain ⟨padding, _, h⟩ := h
  obtain ⟨padding', _, hother⟩ := hother
  have hlength := eight_mul_length h
  have hlength' := eight_mul_length hother
  obtain rfl : padding = padding' := by omega
  exact unpackBytes_injective (h.trans hother.symm)

theorem Packs.take_eq {data : Bytes} {bits : List Bool} (h : Packs data bits) :
    (unpackBytes data).take bits.length = bits := by
  obtain ⟨padding, _, h⟩ := h
  rw [h, List.take_left]

theorem packs_unpackBytes (data : Bytes) : Packs data (unpackBytes data) :=
  ⟨0, by decide, (List.append_nil _).symm⟩

theorem packs_nil : Packs [] [] :=
  ⟨0, by decide, rfl⟩

theorem packBytes_nil (places : Nat) : packBytes places [] = [] := by
  cases places <;> rfl

/-- Bits are cut into blocks of eight, and the last one may be shorter. -/
theorem packs_packBytes {places : Nat} {bits : List Bool} (hbits : bits.length ≤ 8 * places) :
    Packs (packBytes places bits) bits := by
  induction places generalizing bits with
  | zero =>
      obtain rfl : bits = [] := List.length_eq_zero_iff.mp (by omega)
      exact packs_nil
  | succ places ih =>
      by_cases hnil : bits = []
      · rw [hnil, packBytes_nil]
        exact packs_nil
      have hpos : 0 < bits.length := List.length_pos_iff.mpr hnil
      rw [packBytes.eq_3 _ _ hnil, Packs, unpackBytes_cons,
        byteBits_packByte (List.length_take_le 8 bits), List.length_take]
      by_cases hfull : 8 ≤ bits.length
      · have hdrop : (bits.drop 8).length ≤ 8 * places := by
          rw [List.length_drop]
          omega
        obtain ⟨padding, hp, hrest⟩ := ih hdrop
        refine ⟨padding, hp, ?_⟩
        rw [hrest, Nat.min_eq_left hfull, Nat.sub_self, List.replicate_zero, List.append_nil,
          ← List.append_assoc, List.take_append_drop]
      · refine ⟨8 - bits.length, by omega, ?_⟩
        rw [List.drop_eq_nil_of_le (by omega), packBytes_nil, Nat.min_eq_right (by omega),
          List.take_of_length_le (by omega)]
        exact List.append_nil _

theorem unpackBytes_setLast {data : Bytes} {index : Nat} (hdata : 0 < data.length)
    (hindex : index < 8) :
    unpackBytes (setLast index data) =
      (unpackBytes data).set (8 * (data.length - 1) + index) true :=
  unpackBytes_modify data (by omega) hindex

/-- Before a bit is set there is a place for it, a zero behind the bits so far. -/
theorem Packs.opened {data : Bytes} {bits : List Bool} (h : Packs data bits) :
    ∃ padding < 8, unpackBytes (if bits.length % 8 = 0 then data ++ [0] else data) =
      bits ++ List.replicate (padding + 1) false := by
  obtain ⟨padding, hp, h⟩ := h
  have hlength := eight_mul_length h
  split
  · next hopen =>
      obtain rfl : padding = 0 := by omega
      have hzero : unpackBytes [0] = List.replicate 8 false := byteBits_zero
      refine ⟨7, by decide, ?_⟩
      rw [unpackBytes_append, h, hzero, List.replicate_zero, List.append_nil]
  · next hopen =>
      obtain ⟨padding, rfl⟩ := Nat.exists_eq_add_one.mpr (show 0 < padding by omega)
      exact ⟨padding, by omega, h⟩

theorem packs_push {data : Bytes} {bits : List Bool} (h : Packs data bits) (bit : Bool) :
    Packs (push (data, bits.length) bit).1 (bits ++ [bit]) := by
  obtain ⟨padding, hp, hopened⟩ := h.opened
  refine ⟨padding, hp, ?_⟩
  rw [push]
  generalize (if bits.length % 8 = 0 then data ++ [0] else data) = opened at hopened ⊢
  have hlength := eight_mul_length hopened
  rw [List.replicate_succ] at hopened
  cases bit with
  | false => simpa using hopened
  | true =>
      have hplace : 8 * (opened.length - 1) + bits.length % 8 = bits.length := by omega
      rw [if_pos rfl, unpackBytes_setLast (by omega) (Nat.mod_lt _ (by decide)), hopened, hplace,
        List.set_append_right _ _ (Nat.le_refl _), Nat.sub_self, List.set_cons_zero,
        List.append_assoc]
      rfl

theorem packs_foldl_push {data : Bytes} {before : List Bool} (h : Packs data before)
    (bits : List Bool) :
    ∃ packed, bits.foldl push (data, before.length) = (packed, (before ++ bits).length) ∧
      Packs packed (before ++ bits) := by
  induction bits generalizing data before with
  | nil =>
      rw [List.append_nil]
      exact ⟨data, rfl, h⟩
  | cons bit bits ih =>
      obtain ⟨packed, hfold, hpacks⟩ := ih (packs_push h bit)
      rw [List.append_assoc, List.singleton_append] at hfold hpacks
      refine ⟨packed, ?_, hpacks⟩
      rw [List.foldl_cons, ← hfold, List.length_append]
      rfl

theorem packs_ofBits (bits : List Bool) : Packs (ofBits bits).data bits :=
  packs_packBytes (by omega)

/-- Packed one at a time, bits are what they are in blocks of eight. -/
theorem foldl_push (bits : List Bool) :
    bits.foldl push ([], 0) = ((ofBits bits).data, bits.length) := by
  obtain ⟨packed, hfold, hpacks⟩ := packs_foldl_push packs_nil bits
  rw [List.nil_append] at hfold hpacks
  rw [(packs_ofBits bits).unique hpacks]
  exact hfold

/-! ## Bit strings -/

theorem toInt_countOf {n : Nat} (hn : n ≤ maxCount) : (countOf n).toInt = n := by
  have hlt : n < 2 ^ 31 := Nat.lt_succ_of_le hn
  rw [countOf, Nat.min_eq_left hn, Int32.toInt_ofNat_of_lt hlt]

theorem countOf_toNat_toInt {nbits : Int32} (h : 0 ≤ nbits.toInt) :
    countOf nbits.toInt.toNat = nbits := by
  have hlt : nbits.toInt < 2 ^ 31 := nbits.toInt_lt
  have hfits : nbits.toInt.toNat ≤ maxCount := by
    unfold maxCount
    omega
  rw [← Int32.toInt_inj, toInt_countOf hfits, Int.toNat_of_nonneg h]

theorem validation_eq_ok_iff {b : BitString} :
    Validation.bitString b = .ok () ↔
      0 ≤ b.nbits.toInt ∧ b.data.length = (b.nbits.toInt.toNat + 7) / 8 := by
  unfold Validation.bitString
  constructor
  · intro h
    simp only at h
    split at h
    · cases h
    split at h
    · cases h
    split at h
    · cases h
    omega
  · intro h
    obtain ⟨hnonneg, hlength⟩ := h
    simp only
    rw [if_neg (by omega), if_neg (by omega), if_neg (by omega)]

theorem length_bits (b : BitString) : b.bits.length = b.available := by
  rw [bits, List.length_take, length_unpackBytes, available]
  omega

theorem bit?_eq_getElem? (b : BitString) (i : Nat) : b.bit? i = b.bits[i]? := by
  rw [bit?, bits, List.getElem?_take, getElem?_unpackBytes]

theorem bit?_eq_mask {b : BitString} {i : Nat} (hi : i < b.bits.length) :
    ∃ hindex : i / 8 < b.data.length,
      b.bit? i = some (b.data[i / 8] &&& mask (i % 8) != 0) := by
  rw [length_bits] at hi
  have hindex : i / 8 < b.data.length := by
    unfold available at hi
    omega
  refine ⟨hindex, ?_⟩
  rw [bit?, if_pos hi, List.getElem?_eq_getElem hindex, Option.map_some,
    byteBit_eq_mask (Nat.mod_lt _ (by decide))]

section

variable {data : Bytes} {bits : List Bool}

theorem Packs.valid (h : Packs data bits) (hbits : bits.length ≤ maxCount)
    (unknown : UnknownFields) :
    Validation.bitString ⟨data, countOf bits.length, unknown⟩ = .ok () := by
  rw [validation_eq_ok_iff, toInt_countOf hbits, h.length_eq]
  simp

theorem Packs.bits_eq (h : Packs data bits) (hbits : bits.length ≤ maxCount)
    (unknown : UnknownFields) : BitString.bits ⟨data, countOf bits.length, unknown⟩ = bits := by
  have hlength := h.length_eq
  rw [BitString.bits, available, toInt_countOf hbits, Int.toNat_natCast,
    Nat.min_eq_left (by simp only; omega)]
  exact h.take_eq

end

theorem ofBytes_eq (data : Bytes) :
    ofBytes data = ⟨data, countOf (unpackBytes data).length, []⟩ := by
  rw [length_unpackBytes]
  rfl

theorem packs_clearPadding {b : BitString} (h : Validation.bitString b = .ok ()) :
    Packs (clearPadding (8 * b.data.length - b.nbits.toInt.toNat) b.data) b.bits := by
  obtain ⟨hnonneg, hlength⟩ := validation_eq_ok_iff.mp h
  refine ⟨8 * b.data.length - b.nbits.toInt.toNat, by omega, ?_⟩
  rw [unpackBytes_clearPadding (by omega) (by omega), bits, available]
  congr 2
  omega

theorem ofBits_bits {b : BitString} (h : Validation.bitString b = .ok ()) :
    ofBits b.bits =
      { data := clearPadding (8 * b.data.length - b.nbits.toInt.toNat) b.data
        nbits := b.nbits } := by
  obtain ⟨hnonneg, hlength⟩ := validation_eq_ok_iff.mp h
  have hdata := (packs_ofBits b.bits).unique (packs_clearPadding h)
  have hcount : b.bits.length = b.nbits.toInt.toNat := by
    rw [length_bits, available]
    omega
  have hnbits : (ofBits b.bits).nbits = b.nbits := by
    rw [ofBits, hcount, countOf_toNat_toInt hnonneg]
  rw [← hdata, ← hnbits]
  rfl

/--
Bits that are packed, one at a time and none too many to be counted, are valid and come back as they
were, and so are bytes as their bits.  Of any bit string the bits are read that count and have data,
never behind the data.  And the bits of a valid one, packed again, are its data with the padding
cleared.
-/
theorem packing_lossless :
    (∀ bits : List Bool,
      bits.foldl push ([], 0) = ((ofBits bits).data, bits.length) ∧
      (bits.length ≤ maxCount →
        (ofBits bits).bits = bits ∧ Validation.bitString (ofBits bits) = .ok () ∧
        Packs (ofBits bits).data bits)) ∧
    (∀ data : Bytes, 8 * data.length ≤ maxCount →
      Validation.bitString (ofBytes data) = .ok () ∧
      (ofBytes data).bits = data.flatMap fun byte =>
        [7, 6, 5, 4, 3, 2, 1, 0].map byte.toNat.testBit) ∧
    (∀ b : BitString,
      (b.bits.length : Int) = min (max b.nbits.toInt 0) (8 * b.data.length) ∧
      (∀ i, b.bit? i = b.bits[i]?) ∧
      ∀ i, i < b.bits.length → ∃ hindex : i / 8 < b.data.length,
        b.bit? i = some (b.data[i / 8] &&& mask (i % 8) != 0)) ∧
    ∀ b : BitString, Validation.bitString b = .ok () →
      ofBits b.bits =
        { data := clearPadding (8 * b.data.length - b.nbits.toInt.toNat) b.data
          nbits := b.nbits } := by
  refine ⟨?_, ?_, ?_, ?_⟩
  · intro bits
    have hpacks := packs_ofBits bits
    refine ⟨foldl_push bits, ?_⟩
    intro hbits
    exact ⟨hpacks.bits_eq hbits [], hpacks.valid hbits [], hpacks⟩
  · intro data hdata
    have hpacks := packs_unpackBytes data
    rw [← length_unpackBytes] at hdata
    rw [ofBytes_eq]
    exact ⟨hpacks.valid hdata [], hpacks.bits_eq hdata []⟩
  · intro b
    refine ⟨?_, bit?_eq_getElem? b, fun i hi => bit?_eq_mask hi⟩
    rw [length_bits, available]
    omega
  · intro b hb
    exact ofBits_bits hb

/-- Nine bits need a second byte, and what is not theirs in it is cleared. -/
theorem packing_lossless_nine :
    Validation.bitString { data := [0xff, 0xff], nbits := 9 } = .ok () ∧
    ofBits (bits { data := [0xff, 0xff], nbits := 9 }) =
      { data := [0xff, 0x80], nbits := 9 } := by
  have hvalid : Validation.bitString { data := [0xff, 0xff], nbits := 9 } = .ok () := by decide
  have hpacked := packing_lossless.2.2.2 _ hvalid
  exact ⟨hvalid, hpacked.trans (by decide)⟩

end BitString

end TestWire
