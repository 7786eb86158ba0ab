import Mathlib.Data.Nat.Digits.Lemmas
import TestWire.Proofs.Wire.Reader
import TestWire.Wire.Writer

/-! # Varints as digits in base 128 -/

namespace TestWire

namespace Varint

/-- The low seven bits of each byte are a digit in base 128, the lowest one first. -/
def digitSum (bytes : Bytes) : Nat :=
  (bytes.mapIdx fun i b => b.toNat % 128 * 128 ^ i).sum

/-- Every byte but the last has its high bit set; the byte in the last place is zero or one. -/
def Delimited (places : Nat) (front : Bytes) : Prop :=
  ∃ more last, front = more ++ [last] ∧ (∀ b ∈ more, 128 ≤ b.toNat) ∧ last.toNat < 128 ∧
    more.length < places ∧ (more.length + 1 = places → last.toNat ≤ 1)

/-! ## Digits -/

theorem digitSum_eq_ofDigits (bytes : Bytes) :
    digitSum bytes = Nat.ofDigits 128 (bytes.map fun b => b.toNat % 128) := by
  rw [Nat.ofDigits_eq_sum_mapIdx, digitSum]
  congr 1
  rw [List.mapIdx_eq_iff]
  intro i
  simp [Function.comp_def]

@[simp] theorem digitSum_nil : digitSum [] = 0 := rfl

@[simp] theorem digitSum_cons (b : UInt8) (bytes : Bytes) :
    digitSum (b :: bytes) = b.toNat % 128 + 128 * digitSum bytes := by
  rw [digitSum_eq_ofDigits, digitSum_eq_ofDigits, List.map_cons, Nat.ofDigits_cons]

section

variable {places n : Nat} {b : UInt8} {front : Bytes}

theorem Delimited.cons (hb : 128 ≤ b.toNat) (h : Delimited places front) :
    Delimited (places + 1) (b :: front) := by
  rcases h with ⟨more, last, rfl, hmore, hlast, hlength, htop⟩
  refine ⟨b :: more, last, rfl, List.forall_mem_cons.mpr ⟨hb, hmore⟩, hlast, ?_, fun hfull => ?_⟩
  · rw [List.length_cons]
    omega
  · rw [List.length_cons] at hfull
    exact htop (by omega)

theorem delimited_singleton (hb : b.toNat < 128) (htop : places = 0 → b.toNat ≤ 1) :
    Delimited (places + 1) [b] :=
  ⟨[], b, rfl, by simp, hb, Nat.succ_pos _, fun hfull => htop (by simpa using hfull.symm)⟩

/-- The spellings of a number are the varints whose digits sum up to it. -/
theorem spelling_iff : Spelling places front n ↔ Delimited places front ∧ n = digitSum front := by
  constructor
  · intro h
    induction h with
    | last hbyte htop =>
        refine ⟨delimited_singleton hbyte htop, ?_⟩
        simp [Nat.mod_eq_of_lt hbyte]
    | more hbyte _ ih => exact ⟨ih.1.cons hbyte, by rw [digitSum_cons, ih.2]⟩
  · rintro ⟨⟨more, last, rfl, hmore, hlast, hlength, htop⟩, rfl⟩
    -- The last byte stays where it is while the bytes before it are taken off.
    induction more generalizing places with
    | nil =>
        obtain ⟨places, rfl⟩ := Nat.exists_eq_add_one.mpr hlength
        have hspelling : Spelling (places + 1) [last] last.toNat :=
          .last hlast fun hzero => htop (by simp [hzero])
        simpa [Nat.mod_eq_of_lt hlast] using hspelling
    | cons b more ih =>
        rw [List.length_cons] at hlength htop
        obtain ⟨places, rfl⟩ := Nat.exists_eq_add_one.mpr (show 0 < places by omega)
        rw [List.forall_mem_cons] at hmore
        rw [List.cons_append, digitSum_cons]
        exact .more hmore.1 (ih hmore.2 (by omega) fun hfull => htop (by omega))

end

end Varint

/-! ## Reading -/

namespace Reader

section

variable (context : String)

/--
What reading a varint gives: the digits of the varint that the input starts with, or a failure at
the end of an input that stops inside a varint, or one in the last place.
-/
theorem varintDigits_cases (places : Nat) (input : Bytes) :
    (∃ front rest, input = front ++ rest ∧ Varint.Delimited places front ∧
      varintDigits context places input = .ok (Varint.digitSum front) rest) ∨
    (input.length < places ∧ (∀ b ∈ input, 128 ≤ b.toNat) ∧
      varintDigits context places input = .error (.truncated context) []) ∨
    (places ≤ input.length ∧
      varintDigits context places input = .error (.malformedVarint context)
        (input.drop places)) := by
  induction places generalizing input with
  | zero => exact .inr (.inr ⟨Nat.zero_le _, rfl⟩)
  | succ places ih =>
      cases input with
      | nil => exact .inr (.inl ⟨Nat.succ_pos _, by simp, rfl⟩)
      | cons b input =>
          rw [varintDigits_cons]
          by_cases htop : places = 0 ∧ 1 < b.toNat % 128
          · rw [if_pos htop, htop.1]
            exact .inr (.inr ⟨by simp, rfl⟩)
          · rw [if_neg htop]
            by_cases hlast : b.toNat < 128
            · have hmod : b.toNat % 128 = b.toNat := Nat.mod_eq_of_lt hlast
              rw [hmod] at htop
              rw [if_pos hlast]
              exact .inl ⟨[b], input, rfl, Varint.delimited_singleton hlast (by omega), by simp⟩
            · rw [if_neg hlast]
              rcases ih input with ⟨front, rest, rfl, hfront, hread⟩ | ⟨hshort, hmore, hread⟩ |
                ⟨hlong, hread⟩
              · rw [hread]
                exact .inl ⟨b :: front, rest, rfl, hfront.cons (by omega), by simp⟩
              · rw [hread]
                refine .inr (.inl ⟨by simpa using hshort, ?_, rfl⟩)
                exact List.forall_mem_cons.mpr ⟨by omega, hmore⟩
              · rw [hread]
                exact .inr (.inr ⟨by simpa using hlong, rfl⟩)

variable {input rest : Bytes}

theorem varint_eq_ok_iff {value : UInt64} :
    varint context input = .ok value rest ↔
      ∃ front, input = front ++ rest ∧ Varint.Delimited Limits.maxVarintBytes front ∧
        value.toNat = Varint.digitSum front := by
  rw [varint_reads context input value rest]
  simp only [Varint.spelling_iff]

theorem spelling_of_varint {context : String} {front rest : Bytes} {value : UInt64}
    (h : varint context (front ++ rest) = .ok value rest) :
    Varint.Spelling Limits.maxVarintBytes front value.toNat := by
  rcases (varint_reads context _ _ _).mp h with ⟨front', hinput, hspelling⟩
  rwa [List.append_cancel_right hinput]

theorem int32_eq_ok_iff {n : Int32} :
    int32 context input = .ok n rest ↔
      ∃ word, varint context input = .ok word rest ∧ Varint.toInt32 word = n := by
  rw [int32, bind_apply]
  cases varint context input with
  | ok word behind => simp [Pure.pure, EStateM.pure, and_comm]
  | error error behind => simp

theorem varint_eq_error_iff {error : DecodeError} :
    varint context input = .error error rest ↔
      varintDigits context Limits.maxVarintBytes input = .error error rest := by
  rw [varint, bind_apply]
  cases varintDigits context Limits.maxVarintBytes input with
  | ok n behind => simp [Pure.pure, EStateM.pure]
  | error e behind => simp

/-- An input that stops inside a varint is looked at to its end. -/
theorem varint_truncated_iff :
    varint context input = .error (.truncated context) rest ↔
      rest = [] ∧ input.length < Limits.maxVarintBytes ∧ ∀ b ∈ input, 128 ≤ b.toNat := by
  rw [varint_eq_error_iff]
  rcases varintDigits_cases context Limits.maxVarintBytes input with
    ⟨front, behind, rfl, hfront, hread⟩ | ⟨hshort, hmore, hread⟩ | ⟨hlong, hread⟩
  · rw [hread]
    rcases hfront with ⟨more, last, rfl, _, hlast, _⟩
    simp only [reduceCtorEq, false_iff]
    rintro ⟨_, _, hall⟩
    have hle := hall last (by simp)
    omega
  · rw [hread]
    simp only [EStateM.Result.error.injEq, true_and]
    exact ⟨fun h => ⟨h.symm, hshort, hmore⟩, fun h => h.1.symm⟩
  · rw [hread]
    simp only [EStateM.Result.error.injEq, reduceCtorEq, false_and, false_iff]
    rintro ⟨_, hshort, _⟩
    omega

/-- All other inputs that start with no varint fail behind the tenth byte. -/
theorem varint_malformed
    (hnone : ∀ front behind, input = front ++ behind →
      ¬ Varint.Delimited Limits.maxVarintBytes front)
    (hlong : ¬ (input.length < Limits.maxVarintBytes ∧ ∀ b ∈ input, 128 ≤ b.toNat)) :
    varint context input =
      .error (.malformedVarint context) (input.drop Limits.maxVarintBytes) := by
  rw [varint_eq_error_iff]
  rcases varintDigits_cases context Limits.maxVarintBytes input with
    ⟨front, behind, hinput, hfront, _⟩ | ⟨hshort, hmore, _⟩ | ⟨_, hread⟩
  · exact (hnone front behind hinput hfront).elim
  · exact (hlong ⟨hshort, hmore⟩).elim
  · exact hread

end

end Reader

namespace Varint

/-! ## Writing -/

theorem digits_add {places n : Nat} (h : n < 128 ^ (places + 1)) (spare : Nat) :
    digits (places + 1 + spare) n = digits (places + 1) n := by
  induction places generalizing n with
  | zero =>
      have hlt : n < 128 := by simpa using h
      rw [Nat.add_right_comm, digits, digits, if_pos hlt, if_pos hlt]
  | succ places ih =>
      rw [Nat.pow_succ] at h
      have hrest : digits (places + 1 + spare) (n / 128) = digits (places + 1) (n / 128) :=
        ih (by omega)
      rw [Nat.add_right_comm (places + 1)]
      unfold digits
      rw [hrest]

theorem log2_or_one (n : Nat) : (n ||| 1).log2 = n.log2 := by
  by_cases hzero : n = 0
  · rw [hzero]
    decide
  · have hone : 1 < 2 ^ (n.log2 + 1) := Nat.one_lt_two_pow (by omega)
    rw [Nat.log2_eq_iff (by simp [Nat.or_eq_zero_iff])]
    exact ⟨Nat.le_trans (Nat.log2_self_le hzero) Nat.left_le_or,
      Nat.or_lt_two_pow Nat.lt_log2_self hone⟩

/-- The size from the leading zeros: seven bits a byte, and zero has one bit. -/
theorem size_eq_leading_zeros (value : UInt64) :
    size value = (64 - (value ||| 1).toBitVec.clz.toNat + 6) / 7 := by
  have hor : (value ||| 1).toBitVec.toNat = value.toNat ||| 1 := rfl
  have hpos : (value.toNat ||| 1) ≠ 0 := by simp [Nat.or_eq_zero_iff]
  have hne : (value ||| 1).toBitVec ≠ 0#64 := by
    intro hzero
    rw [hzero] at hor
    exact hpos hor.symm
  have hge := BitVec.two_pow_sub_clz_le_toNat_of_ne_zero (by decide) hne
  have hlt := BitVec.toNat_lt_two_pow_sub_clz (x := (value ||| 1).toBitVec)
  rw [hor] at hge hlt
  have hlower := (Nat.le_log2 hpos).mpr hge
  have hupper := (Nat.log2_lt hpos).mpr hlt
  rw [log2_or_one] at hlower hupper
  rw [size]
  omega

/-! ## Signed integers -/

theorem toInt_ofInt32 (n : Int32) : (ofInt32 n).toBitVec.toInt = n.toInt :=
  Int32.toInt_toInt64 n

theorem int32Size_of_neg {n : Int32} (h : n < 0) : int32Size n = 10 := by
  have hneg : n.toInt < 0 := Int32.lt_iff_toInt_lt.mp h
  have hword : 2 ^ 63 ≤ (ofInt32 n).toNat := by
    have hbits := toInt_ofInt32 n
    rw [BitVec.toInt_eq_toNat_cond] at hbits
    have hnat : (ofInt32 n).toBitVec.toNat = (ofInt32 n).toNat := rfl
    rw [hnat] at hbits
    split at hbits
    · omega
    · omega
  have hten := size_le_ten (ofInt32 n)
  have hlog := (Nat.le_log2 (by omega)).mpr hword
  rw [size] at hten
  rw [int32Size, size]
  omega

theorem toInt_toInt32 (word : UInt64) : (toInt32 word).toInt = Int.bmod word.toNat (2 ^ 32) := by
  have hlow : word.toUInt32.toBitVec.toNat = word.toNat % 2 ^ 32 := UInt64.toNat_toUInt32 word
  have hbits : (toInt32 word).toInt = word.toUInt32.toBitVec.toInt := rfl
  rw [hbits, BitVec.toInt_eq_toNat_bmod, hlow, Int.natCast_emod, Int.emod_bmod]

theorem toInt32_eq_iff {word : UInt64} {n : Int32} :
    toInt32 word = n ↔ (word.toNat : Int) % 2 ^ 32 = n.toInt % 2 ^ 32 := by
  rw [← Int32.toInt_inj, toInt_toInt32]
  constructor
  · intro h
    rw [← h]
    exact Int.bmod_emod.symm
  · intro h
    have hn := Int32.toInt_bmod n
    rw [← Int.emod_bmod] at hn ⊢
    exact (congrArg (Int.bmod · (2 ^ 32)) h).trans hn

/--
Reading a varint succeeds exactly on the inputs that start with one, takes it and gives the sum of
its digits, which is a word of 64 bits.  It is truncated exactly when the input ends too early, and
malformed otherwise.  Writing appends as many bytes as the size says, which are the fewest that are
read as the word, and a place more would stay empty.  A signed integer is read from the varints of
the words that agree with it in the low 32 bits.
-/
theorem varint_exact (context : String) :
    (∀ (input rest : Bytes) (value : UInt64),
      Reader.varint context input = .ok value rest ↔
        ∃ front, input = front ++ rest ∧ Delimited Limits.maxVarintBytes front ∧
          value.toNat = digitSum front) ∧
    (∀ front, Delimited Limits.maxVarintBytes front → digitSum front < 2 ^ 64) ∧
    (∀ input rest, Reader.varint context input = .error (.truncated context) rest ↔
      rest = [] ∧ input.length < Limits.maxVarintBytes ∧ ∀ b ∈ input, 128 ≤ b.toNat) ∧
    (∀ input, (∀ front rest, input = front ++ rest → ¬ Delimited Limits.maxVarintBytes front) →
      ¬ (input.length < Limits.maxVarintBytes ∧ ∀ b ∈ input, 128 ≤ b.toNat) →
      Reader.varint context input =
        .error (.malformedVarint context) (input.drop Limits.maxVarintBytes)) ∧
    (∀ (writer : Writer) (value : UInt64),
      (writer.varint value).toBytes = writer.toBytes ++ encode value ∧
      (encode value).length = size value ∧ size value ≤ Limits.maxVarintBytes ∧
      size value = (64 - (value ||| 1).toBitVec.clz.toNat + 6) / 7 ∧
      (∀ spare, digits (Limits.maxVarintBytes + spare) value.toNat = encode value) ∧
      (∀ rest, Reader.varint context (encode value ++ rest) = .ok value rest) ∧
      ∀ front rest, Reader.varint context (front ++ rest) = .ok value rest →
        size value ≤ front.length ∧ (front.length = size value → front = encode value)) ∧
    ∀ (writer : Writer) (n : Int32),
      (writer.int32 n).toBytes = writer.toBytes ++ encodeInt32 n ∧
      (encodeInt32 n).length = int32Size n ∧ (n < 0 → int32Size n = 10) ∧
      ∀ input rest, Reader.int32 context input = .ok n rest ↔
        ∃ word, Reader.varint context input = .ok word rest ∧
          (word.toNat : Int) % 2 ^ 32 = n.toInt % 2 ^ 32 := by
  refine ⟨fun input rest value => Reader.varint_eq_ok_iff context, ?_,
    fun input rest => Reader.varint_truncated_iff context,
    fun input => Reader.varint_malformed context, ?_, ?_⟩
  · intro front hfront
    exact (spelling_iff.mpr ⟨hfront, rfl⟩).lt_two_pow
  · intro writer value
    refine ⟨Writer.toBytes_varint writer value, length_encode value, size_le_ten value,
      size_eq_leading_zeros value, fun spare => ?_, fun rest => ?_, fun front rest h => ?_⟩
    · exact digits_add (Nat.lt_trans value.toNat_lt (by decide)) spare
    · exact (Reader.varint_reads context).ok_append (spelling_encode value) rest
    · have hspelling := Reader.spelling_of_varint h
      have hsize := hspelling.size_le
      rw [UInt64.ofNat_toNat] at hsize
      refine ⟨hsize, fun hlength => ?_⟩
      rw [← length_encode] at hlength
      exact hspelling.eq_of_length_eq (spelling_encode value) rfl hlength
  · intro writer n
    refine ⟨Writer.toBytes_int32 writer n, length_encodeInt32 n, int32Size_of_neg,
      fun input rest => ?_⟩
    rw [Reader.int32_eq_ok_iff]
    simp only [toInt32_eq_iff]

/-- The number 1 in two bytes, an input that stops, ten bytes that go on, and -1 in five bytes. -/
theorem varint_exact_overlong :
    Reader.varint "tag" [0x81, 0, 7] = .ok 1 [7] ∧
    Reader.varint "tag" [0x81] = .error (.truncated "tag") [] ∧
    Reader.varint "tag" (List.replicate 11 0x80) = .error (.malformedVarint "tag") [0x80] ∧
    size 1 ≤ 2 ∧ int32Size (-1) = 10 ∧
    Reader.int32 "tag" [0xff, 0xff, 0xff, 0xff, 0x0f, 7] = .ok (-1) [7] := by
  obtain ⟨hread, _, htruncated, hmalformed, hwritten, hsigned⟩ := varint_exact "tag"
  have hzero : Delimited 9 [0] := delimited_singleton (by decide) (by decide)
  have hone : Reader.varint "tag" [0x81, 0, 7] = .ok 1 [7] :=
    (hread _ _ _).mpr ⟨[0x81, 0], rfl, hzero.cons (by decide), by decide⟩
  have hfifth : Delimited 6 [0x0f] := delimited_singleton (by decide) (by decide)
  have hfull : Delimited 10 [0xff, 0xff, 0xff, 0xff, 0x0f] :=
    (((hfifth.cons (by decide)).cons (by decide)).cons (by decide)).cons (by decide)
  have hword : Reader.varint "tag" [0xff, 0xff, 0xff, 0xff, 0x0f, 7] = .ok 0xffffffff [7] :=
    (hread _ _ _).mpr ⟨[0xff, 0xff, 0xff, 0xff, 0x0f], rfl, hfull, by decide⟩
  refine ⟨hone, (htruncated _ _).mpr ⟨rfl, by decide, by simp⟩,
    hmalformed _ ?_ (fun hshort => absurd hshort.1 (by decide)),
    ((hwritten {} 1).2.2.2.2.2.2 [0x81, 0] [7] hone).1, (hsigned {} (-1)).2.2.1 (by decide),
    ((hsigned {} (-1)).2.2.2 _ _).mpr ⟨_, hword, by decide⟩⟩
  rintro front rest hinput ⟨more, last, rfl, _, hlast, _⟩
  have hmem : last ∈ List.replicate 11 0x80 := by simp [hinput]
  rw [List.eq_of_mem_replicate hmem] at hlast
  exact absurd hlast (by decide)

end Varint

end TestWire
