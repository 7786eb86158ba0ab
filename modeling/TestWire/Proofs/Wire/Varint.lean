import Mathlib.Algebra.Group.Nat.Defs
import TestWire.Wire.Varint

/-! # Varints as they are spelled

A number has many varints, the shortest, which is written, and longer ones that end in zero digits.
-/

namespace TestWire

namespace Varint

/-- The bytes that spell a number as a varint of at most `places` bytes. -/
inductive Spelling : Nat → Bytes → Nat → Prop
  /-- The last byte has a clear high bit; in the last place of all it counts one bit only. -/
  | last {places : Nat} {byte : UInt8} (hbyte : byte.toNat < 128)
      (htop : places = 0 → byte.toNat ≤ 1) : Spelling (places + 1) [byte] byte.toNat
  /-- Every other byte has its high bit set, which does not count. -/
  | more {places n : Nat} {byte : UInt8} {rest : Bytes} (hbyte : 128 ≤ byte.toNat)
      (hrest : Spelling places rest n) :
      Spelling (places + 1) (byte :: rest) (byte.toNat % 128 + 128 * n)

namespace Spelling

variable {places n : Nat} {bytes : Bytes}

theorem length_pos (h : Spelling places bytes n) : 0 < bytes.length := by
  cases h <;> simp

theorem lt_pow_length (h : Spelling places bytes n) : n < 128 ^ bytes.length := by
  induction h with
  | last hbyte _ => simpa using hbyte
  | more _ _ ih =>
      rw [List.length_cons, Nat.pow_succ]
      omega

theorem lt_two_mul_pow (h : Spelling (places + 1) bytes n) : n < 2 * 128 ^ places := by
  induction places generalizing bytes n with
  | zero =>
      cases h with
      | last _ htop =>
          have hle := htop rfl
          omega
      | more _ hrest => cases hrest
  | succ places ih =>
      rw [Nat.pow_succ]
      cases h with
      | last hbyte _ =>
          have hpow : 0 < 128 ^ places := Nat.pow_pos (by omega)
          omega
      | more _ hrest =>
          have hlt := ih hrest
          omega

/-- Ten bytes of which the last counts one bit spell the words of 64 bits. -/
theorem lt_two_pow (h : Spelling Limits.maxVarintBytes bytes n) : n < 2 ^ 64 :=
  h.lt_two_mul_pow

end Spelling

/-- A payload behind a spelling of its length. -/
def Prefixed (front content : Bytes) : Prop :=
  ∃ length, front = length ++ content ∧ Spelling Limits.maxVarintBytes length content.length

theorem Prefixed.length_lt {front content : Bytes} (h : Prefixed front content) :
    content.length < front.length := by
  obtain ⟨length, rfl, hlength⟩ := h
  have hpos := hlength.length_pos
  rw [List.length_append]
  omega

theorem Prefixed.length_le {front content : Bytes} (h : Prefixed front content) :
    content.length ≤ front.length :=
  Nat.le_of_lt h.length_lt

/-! ## The shortest spelling -/

theorem toNat_ofNat_of_lt {n : Nat} (h : n < 256) : (UInt8.ofNat n).toNat = n := by
  rw [UInt8.toNat_ofNat']
  omega

theorem spelling_digits {places n : Nat} (h : n < 2 * 128 ^ places) :
    Spelling (places + 1) (digits (places + 1) n) n := by
  induction places generalizing n with
  | zero =>
      have hbyte : (UInt8.ofNat n).toNat = n := toNat_ofNat_of_lt (by omega)
      have hlast := @Spelling.last 0 (UInt8.ofNat n) (by omega) (by omega)
      rw [hbyte] at hlast
      simpa [digits, show n < 128 by omega] using hlast
  | succ places ih =>
      rw [Nat.pow_succ] at h
      rw [digits]
      split
      · next hlt =>
          have hbyte : (UInt8.ofNat n).toNat = n := toNat_ofNat_of_lt (by omega)
          have hlast := @Spelling.last (places + 1) (UInt8.ofNat n) (by omega) (by omega)
          rwa [hbyte] at hlast
      · next hge =>
          have hbyte : (UInt8.ofNat (n % 128 + 128)).toNat = n % 128 + 128 :=
            toNat_ofNat_of_lt (by omega)
          have hrest : Spelling (places + 1) (digits (places + 1) (n / 128)) (n / 128) :=
            ih (by omega)
          have hmore := @Spelling.more _ _ (UInt8.ofNat (n % 128 + 128)) _ (by omega) hrest
          have hvalue : (n % 128 + 128) % 128 + 128 * (n / 128) = n := by omega
          rwa [hbyte, hvalue] at hmore

theorem spelling_encode (value : UInt64) :
    Spelling Limits.maxVarintBytes (encode value) value.toNat :=
  spelling_digits value.toNat_lt

theorem spelling_encode_ofNat {n : Nat} (h : n < 2 ^ 64) :
    Spelling Limits.maxVarintBytes (encode (UInt64.ofNat n)) n := by
  have hspelling := spelling_encode (UInt64.ofNat n)
  rwa [UInt64.toNat_ofNat_of_lt' h] at hspelling

theorem prefixed_encodePrefixed {payload : Bytes} (h : payload.length < 2 ^ 64) :
    Prefixed (encodePrefixed payload) payload :=
  ⟨encode (UInt64.ofNat payload.length), rfl, spelling_encode_ofNat h⟩

/-! ## Sizes -/

theorem log2_lt_seven {n : Nat} (h : n < 128) : n.log2 < 7 := by
  by_cases hzero : n = 0
  · simp [hzero]
  · exact (Nat.log2_lt hzero).mpr h

theorem log2_eq_log2_div_add_seven {n : Nat} (h : 128 ≤ n) : n.log2 = (n / 128).log2 + 7 := by
  have hhalves : n / 128 = n / 2 / 2 / 2 / 2 / 2 / 2 / 2 := by omega
  rw [hhalves]
  iterate 7 rw [Nat.log2_def, if_pos (by omega)]

theorem length_digits {places n : Nat} (h : n < 128 ^ (places + 1)) :
    (digits (places + 1) n).length = n.log2 / 7 + 1 := by
  induction places generalizing n with
  | zero =>
      have hlog := log2_lt_seven (show n < 128 by omega)
      simp [digits, show n < 128 by omega]
      omega
  | succ places ih =>
      rw [digits]
      split
      · next hlt =>
          have hlog := log2_lt_seven hlt
          rw [List.length_singleton]
          omega
      · next hge =>
          have hlog : n.log2 = (n / 128).log2 + 7 := log2_eq_log2_div_add_seven (by omega)
          rw [Nat.pow_succ] at h
          rw [List.length_cons, ih (by omega)]
          omega

@[simp] theorem length_encode (value : UInt64) : (encode value).length = size value :=
  length_digits (Nat.lt_trans value.toNat_lt (by decide))

@[simp] theorem length_encodeInt32 (value : Int32) :
    (encodeInt32 value).length = int32Size value :=
  length_encode _

@[simp] theorem length_encodePrefixed (payload : Bytes) :
    (encodePrefixed payload).length = prefixedSize payload.length := by
  simp [encodePrefixed, prefixedSize]

theorem size_pos (value : UInt64) : 0 < size value := by
  simp [size]

theorem size_ofNat {n : Nat} (h : n < 2 ^ 64) : size (UInt64.ofNat n) = n.log2 / 7 + 1 := by
  rw [size, UInt64.toNat_ofNat_of_lt' h]

theorem size_le_ten (value : UInt64) : size value ≤ 10 := by
  by_cases hzero : value.toNat = 0
  · simp [size, hzero]
  · have hlog : value.toNat.log2 < 64 := (Nat.log2_lt hzero).mpr value.toNat_lt
    rw [size]
    omega

theorem size_ofNat_le_size_ofNat {m n : Nat} (hle : m ≤ n) (h : n < 2 ^ 64) :
    size (UInt64.ofNat m) ≤ size (UInt64.ofNat n) := by
  have hlog : m.log2 ≤ n.log2 := by
    by_cases hzero : m = 0
    · simp [hzero]
    · exact (Nat.le_log2 (by omega)).mpr (Nat.le_trans (Nat.log2_self_le hzero) hle)
  rw [size_ofNat (Nat.lt_of_le_of_lt hle h), size_ofNat h]
  omega

theorem size_ofNat_add_le {m n : Nat} (h : m + n < 2 ^ 64) :
    size (UInt64.ofNat (m + n)) ≤ size (UInt64.ofNat m) + size (UInt64.ofNat n) := by
  have hlog : (m + n).log2 ≤ max m.log2 n.log2 + 1 := by
    by_cases hzero : m + n = 0
    · simp [hzero]
    · have hm : m < 2 ^ (max m.log2 n.log2 + 1) :=
        Nat.lt_of_lt_of_le Nat.lt_log2_self (Nat.pow_le_pow_right (by omega) (by omega))
      have hn : n < 2 ^ (max m.log2 n.log2 + 1) :=
        Nat.lt_of_lt_of_le Nat.lt_log2_self (Nat.pow_le_pow_right (by omega) (by omega))
      have hsum : (m + n).log2 < max m.log2 n.log2 + 1 + 1 := by
        rw [Nat.log2_lt hzero, Nat.pow_succ]
        omega
      omega
  rw [size_ofNat h, size_ofNat (by omega), size_ofNat (by omega)]
  omega

theorem Spelling.size_le {bytes : Bytes} {n : Nat}
    (h : Spelling Limits.maxVarintBytes bytes n) : size (UInt64.ofNat n) ≤ bytes.length := by
  rw [size_ofNat h.lt_two_pow]
  by_cases hzero : n = 0
  · have hlength := h.length_pos
    simp only [hzero, Nat.log2_zero]
    omega
  · have hlog : n.log2 < 7 * bytes.length := by
      rw [Nat.log2_lt hzero, Nat.pow_mul]
      exact h.lt_pow_length
    omega

/-! ## Shortest spellings -/

/-- A spelling than which no other spelling of the same number is shorter. -/
def Shortest (bytes : Bytes) (n : Nat) : Prop :=
  Spelling Limits.maxVarintBytes bytes n ∧
    ∀ other, Spelling Limits.maxVarintBytes other n → bytes.length ≤ other.length

/-- The length of a spelling says how many zero digits it ends in, so it tells spellings apart. -/
theorem Spelling.eq_of_length_eq {places n n' : Nat} {bytes bytes' : Bytes}
    (h : Spelling places bytes n) (h' : Spelling places bytes' n') (hn : n = n')
    (hlength : bytes.length = bytes'.length) : bytes = bytes' := by
  induction h generalizing bytes' n' with
  | @last places byte hbyte _ =>
      cases h' with
      | @last _ byte' _ _ => rw [UInt8.toNat_inj.mp hn]
      | more _ hrest =>
          have hpos := hrest.length_pos
          simp only [List.length_cons, List.length_nil] at hlength
          omega
  | @more places n byte rest hbyte hrest ih =>
      cases h' with
      | last _ _ =>
          have hpos := hrest.length_pos
          simp only [List.length_cons, List.length_nil] at hlength
          omega
      | @more _ n' byte' rest' hbyte' hrest' =>
          have hlt := byte.toNat_lt_size
          have hlt' := byte'.toNat_lt_size
          simp only [UInt8.size] at hlt hlt'
          have hdigit : byte = byte' := UInt8.toNat_inj.mp (by omega)
          have htail : rest = rest' := ih hrest' (by omega) (by simpa using hlength)
          rw [hdigit, htail]

theorem shortest_encode (value : UInt64) : Shortest (encode value) value.toNat := by
  refine ⟨spelling_encode value, fun other hother => ?_⟩
  have hsize := hother.size_le
  rwa [UInt64.ofNat_toNat, ← length_encode] at hsize

theorem shortest_iff {value : UInt64} {bytes : Bytes} :
    Shortest bytes value.toNat ↔ bytes = encode value := by
  constructor
  · intro h
    have hle : bytes.length ≤ (encode value).length := h.2 _ (spelling_encode value)
    have hge : (encode value).length ≤ bytes.length := (shortest_encode value).2 _ h.1
    exact h.1.eq_of_length_eq (spelling_encode value) rfl (Nat.le_antisymm hle hge)
  · intro h
    rw [h]
    exact shortest_encode value

def ShortestPrefixed (front content : Bytes) : Prop :=
  ∃ length, front = length ++ content ∧ Shortest length content.length

theorem shortestPrefixed_iff {front content : Bytes} :
    ShortestPrefixed front content ↔
      content.length < 2 ^ 64 ∧ front = encodePrefixed content := by
  constructor
  · intro h
    obtain ⟨length, rfl, hlength⟩ := h
    have hlt := hlength.1.lt_two_pow
    rw [← UInt64.toNat_ofNat_of_lt' hlt] at hlength
    exact ⟨hlt, by rw [shortest_iff.mp hlength, encodePrefixed]⟩
  · intro h
    obtain ⟨hlt, rfl⟩ := h
    have hlength := shortest_encode (UInt64.ofNat content.length)
    rw [UInt64.toNat_ofNat_of_lt' hlt] at hlength
    exact ⟨_, rfl, hlength⟩

/-! ## Signed integers -/

@[simp] theorem toInt32_ofInt32 (value : Int32) : toInt32 (ofInt32 value) = value := by
  have hnarrow := congrArg Int32.toBitVec (Int32.toInt32_toInt64 value)
  rw [Int64.toBitVec_toInt32, BitVec.signExtend_eq_setWidth_of_le _ (by omega)] at hnarrow
  apply Int32.toBitVec_inj.mp
  simpa [toInt32, ofInt32] using hnarrow

theorem toNat_ofInt32_toInt32 {word : UInt64} (h : word.toNat % 2 ^ 32 < 2 ^ 31) :
    (ofInt32 (toInt32 word)).toNat = word.toNat % 2 ^ 32 := by
  have hlow : word.toUInt32.toBitVec.toNat = word.toNat % 2 ^ 32 := UInt64.toNat_toUInt32 word
  have hmsb : word.toUInt32.toBitVec.msb = false := by
    rw [BitVec.msb_eq_false_iff_two_mul_lt]
    omega
  have hbits : (ofInt32 (toInt32 word)).toNat =
      (word.toUInt32.toBitVec.signExtend 64).toNat := rfl
  rw [hbits, BitVec.signExtend_eq_setWidth_of_msb_false hmsb, BitVec.toNat_setWidth, hlow]
  omega

/--
An integer read from few bytes may be written in more: as a negative one it takes ten.  But then
five were needed to set its sign.
-/
theorem Spelling.int32Size_le {bytes : Bytes} {word : UInt64}
    (h : Spelling Limits.maxVarintBytes bytes word.toNat) :
    int32Size (toInt32 word) ≤ 2 * bytes.length := by
  by_cases hsign : word.toNat % 2 ^ 32 < 2 ^ 31
  · have hle := size_ofNat_le_size_ofNat (Nat.mod_le word.toNat (2 ^ 32)) word.toNat_lt
    have hsize := h.size_le
    rw [int32Size, ← UInt64.ofNat_toNat (x := ofInt32 (toInt32 word)), toNat_ofInt32_toInt32 hsign]
    omega
  · have hlength : 5 ≤ bytes.length := by
      apply Nat.le_of_not_lt
      intro hshort
      have hpow : 128 ^ bytes.length ≤ 128 ^ 4 := Nat.pow_le_pow_right (by omega) (by omega)
      have hlt := h.lt_pow_length
      omega
    have hten := size_le_ten (ofInt32 (toInt32 word))
    rw [int32Size]
    omega

/-! ## Growth -/

/--
A payload that grows by up to twice a content grows by up to twice the bytes of that content and of
its length, in whatever way the length was spelled.
-/
theorem Prefixed.prefixedSize_le {front content : Bytes} (h : Prefixed front content) {m n : Nat}
    (hle : n ≤ m + 2 * content.length) (hlt : m + 2 * content.length < 2 ^ 64) :
    prefixedSize n ≤ prefixedSize m + 2 * front.length := by
  obtain ⟨length, rfl, hlength⟩ := h
  have hspelled := hlength.size_le
  have hgrown := size_ofNat_le_size_ofNat hle hlt
  have hsum : m + 2 * content.length = m + (content.length + content.length) := by omega
  have hfirst := size_ofNat_add_le (m := m) (n := content.length + content.length) (by omega)
  have hsecond := size_ofNat_add_le (m := content.length) (n := content.length) (by omega)
  rw [hsum] at hgrown
  simp only [prefixedSize, List.length_append]
  omega

end Varint

end TestWire
