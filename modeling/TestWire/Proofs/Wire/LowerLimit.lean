import TestWire.Proofs.Wire.UnknownField

/-! # Reads under a lower depth limit

Two reads that differ in their levels go the same way, up to the first group that the one with fewer
of them has no level for.
-/

namespace TestWire

namespace Reader

variable {α β : Type}

/-- What a read gives when levels do not matter to it. -/
inductive Settled (input : Bytes) : EStateM.Result DecodeError Bytes α → Prop
  | ok {a : α} {rest : Bytes} (hle : rest.length ≤ input.length) : Settled input (.ok a rest)
  | failed {error : DecodeError} {rest : Bytes} (herror : ∀ max, error ≠ .depthExceeded max) :
      Settled input (.error error rest)

/-- The read takes its bytes off the front, and does not fail for want of levels. -/
def Depthless (read : Reader α) : Prop :=
  ∀ input, Settled input (read input)

theorem Settled.mono {input input' : Bytes} {result : EStateM.Result DecodeError Bytes α}
    (h : Settled input result) (hle : input.length ≤ input'.length) : Settled input' result := by
  cases h with
  | ok hrest => exact .ok (Nat.le_trans hrest hle)
  | failed herror => exact .failed herror

namespace Depthless

theorem pure (a : α) : Depthless (Pure.pure a) :=
  fun _ => .ok (Nat.le_refl _)

theorem throw {error : DecodeError} (h : ∀ max, error ≠ .depthExceeded max) :
    Depthless (throw error : Reader α) :=
  fun _ => .failed h

theorem bind {read : Reader α} {next : α → Reader β} (hread : read.Depthless)
    (hnext : ∀ a, (next a).Depthless) : Depthless (read >>= next) := by
  intro input
  have hresult := hread input
  rw [bind_apply]
  generalize read input = result at hresult ⊢
  cases hresult with
  | ok hle => exact (hnext _ _).mono hle
  | failed herror => exact .failed herror

theorem map {read : Reader α} (h : read.Depthless) (f : α → β) : Depthless (f <$> read) := by
  rw [map_eq_pure_bind]
  exact h.bind fun a => pure (f a)

theorem discard {read : Reader α} (h : read.Depthless) : Depthless (discard read) :=
  h.map fun _ => ()

end Depthless

/-! ## The readers -/

theorem byte_depthless (context : String) : (byte context).Depthless := by
  intro input
  cases input with
  | nil => exact .failed (by simp)
  | cons b input => exact .ok (by simp)

theorem bytes_depthless (n : Nat) (context : String) : (bytes n context).Depthless := by
  intro input
  cases hresult : bytes n context input with
  | ok content rest =>
      obtain ⟨front, rfl, _⟩ := (bytes_reads n context _ _ _).mp hresult
      exact .ok (by simp)
  | error error rest =>
      unfold bytes at hresult
      split at hresult
      · cases hresult
      · cases hresult
        exact .failed (by simp)

theorem varintDigits_depthless (context : String) (places : Nat) :
    (varintDigits context places).Depthless := by
  induction places with
  | zero => exact Depthless.throw (by simp)
  | succ places ih =>
      refine (byte_depthless context).bind fun b => ?_
      by_cases htop : places = 0 ∧ 1 < b.toNat % 128
      · simp only [if_pos htop]
        exact Depthless.throw (by simp)
      · simp only [if_neg htop]
        by_cases hlast : b.toNat < 128
        · simp only [if_pos hlast]
          exact Depthless.pure _
        · simp only [if_neg hlast]
          exact ih.bind fun n => Depthless.pure _

theorem varint_depthless (context : String) : (varint context).Depthless :=
  (varintDigits_depthless context _).map _

theorem int32_depthless (context : String) : (int32 context).Depthless :=
  (varint_depthless context).map _

theorem fixed64_depthless (context : String) : (fixed64 context).Depthless :=
  (bytes_depthless 8 context).map _

theorem prefixed_depthless (field : String) : (prefixed field).Depthless :=
  (varint_depthless field).bind fun length => bytes_depthless length.toNat field

theorem text_depthless (field : String) : (text field).Depthless := by
  refine (prefixed_depthless field).bind fun content => ?_
  cases content.toString? with
  | none => exact Depthless.throw (by simp)
  | some text => exact Depthless.pure text

end Reader

theorem Tag.ofRaw_ne_depthExceeded (raw : UInt64) (max : Nat) :
    ofRaw raw ≠ .error (.depthExceeded max) := by
  unfold ofRaw
  split
  · simp
  · split
    · simp
    · split
      · simp
      · split <;> simp

theorem Tag.read_depthless : Tag.read.Depthless := by
  refine (Reader.varint_depthless "tag").bind fun raw => ?_
  cases hanswer : ofRaw raw with
  | ok tag? => exact Reader.Depthless.pure tag?
  | error error =>
      refine Reader.Depthless.throw fun max herror => ofRaw_ne_depthExceeded raw max ?_
      rw [hanswer, herror]

/-! ## Two reads of one input -/

namespace Reader

variable {α : Type}

/-- With `left` levels a read gives the same as with more, or they run out and there is a byte for
each. -/
inductive Tightened (max left : Nat) (input : Bytes) :
    EStateM.Result DecodeError Bytes α → EStateM.Result DecodeError Bytes α → Prop
  | exceeded {rest : Bytes} {loose : EStateM.Result DecodeError Bytes α}
      (hleft : left ≤ input.length) :
      Tightened max left input (.error (.depthExceeded max) rest) loose
  | same {result : EStateM.Result DecodeError Bytes α} (hsettled : Settled input result) :
      Tightened max left input result result

def Tightens (max left : Nat) (tight loose : Reader α) : Prop :=
  ∀ input, Tightened max left input (tight input) (loose input)

theorem Depthless.tightens {read : Reader α} (h : read.Depthless) (max left : Nat) :
    Tightens max left read read :=
  fun input => .same (h input)

/-- A level more goes with a byte more. -/
theorem Tightened.mono {max left left' : Nat} {input input' : Bytes}
    {tight loose : EStateM.Result DecodeError Bytes α} (h : Tightened max left input tight loose)
    (hle : input.length ≤ input'.length) (hleft : left' + input.length ≤ left + input'.length) :
    Tightened max left' input' tight loose := by
  cases h with
  | exceeded hshort => exact .exceeded (by omega)
  | same hsettled => exact .same (hsettled.mono hle)

end Reader

namespace Payload

section

variable {inner inner' : Tag → Reader Unit} {max left : Nat} (number : UInt32)
  (hinner : ∀ tag, Reader.Tightens max left (inner tag) (inner' tag))

include hinner

theorem skipFields_tightens (bound : Nat) :
    Reader.Tightens max (left + 1) (skipFields inner number bound)
      (skipFields inner' number bound) := by
  induction bound with
  | zero => exact (Reader.Depthless.throw (by simp)).tightens max _
  | succ bound ih =>
      intro input
      rw [skipFields_succ, skipFields_succ]
      by_cases hempty : input.isEmpty
      · rw [if_pos hempty, if_pos hempty]
        exact .same (.failed (by simp))
      · rw [if_neg hempty, if_neg hempty]
        have hread := Tag.read_depthless input
        cases htag : Tag.read input with
        | error error rest =>
            rw [htag] at hread
            cases hread with
            | failed herror => exact .same (.failed herror)
        | ok tag? rest =>
            cases tag? with
            | none => exact .same (.failed (by simp))
            | some tag =>
                obtain ⟨front, rfl, hfront⟩ := (Tag.read_reads _ _ _).mp htag
                have hpos := hfront.length_pos
                dsimp only
                by_cases hend : tag.wireType = .endGroup
                · rw [if_pos hend, if_pos hend]
                  by_cases hnumber : tag.number = number
                  · rw [if_pos hnumber]
                    exact .same (.ok (by simp))
                  · rw [if_neg hnumber]
                    exact .same (.failed (by simp))
                · rw [if_neg hend, if_neg hend]
                  have hskip := hinner tag rest
                  generalize inner tag rest = result, inner' tag rest = result' at hskip ⊢
                  -- The tag in front of the field is the byte that the level of the group takes.
                  cases hskip with
                  | exceeded hleft =>
                      refine .exceeded ?_
                      rw [List.length_append]
                      omega
                  | same hsettled =>
                      cases hsettled with
                      | failed herror => exact .same (.failed herror)
                      | ok hle =>
                          refine (ih _).mono ?_ ?_
                          · rw [List.length_append]
                            omega
                          · rw [List.length_append]
                            omega

end

theorem skip_depthless_of_ne_startGroup (max left : Nat) {tag : Tag}
    (h : tag.wireType ≠ .startGroup) : (skip max left tag).Depthless := by
  unfold skip
  cases hwire : tag.wireType with
  | varint => exact (Reader.varint_depthless _).discard
  | fixed64 => exact (Reader.bytes_depthless 8 _).discard
  | fixed32 => exact (Reader.bytes_depthless 4 _).discard
  | lengthDelimited => exact (Reader.prefixed_depthless _).discard
  | startGroup => exact (h hwire).elim
  | endGroup => exact Reader.Depthless.throw (by simp)

theorem skip_tightens (max max' : Nat) {left left' : Nat} (hle : left ≤ left') (tag : Tag) :
    Reader.Tightens max left (skip max left tag) (skip max' left' tag) := by
  induction left generalizing left' tag with
  | zero =>
      by_cases hgroup : tag.wireType = .startGroup
      · intro input
        unfold skip
        rw [hgroup]
        exact .exceeded (Nat.zero_le _)
      · rw [skip_congr_of_ne_startGroup max' max left' 0 hgroup]
        exact (skip_depthless_of_ne_startGroup max 0 hgroup).tightens max 0
  | succ left ih =>
      by_cases hgroup : tag.wireType = .startGroup
      · obtain ⟨left', rfl⟩ := Nat.exists_eq_add_one.mpr (show 0 < left' by omega)
        have hinner (tag : Tag) :
            Reader.Tightens max left (skip max left tag) (skip max' left' tag) :=
          ih (Nat.le_of_succ_le_succ hle) tag
        intro input
        rw [skip_startGroup max left hgroup, skip_startGroup max' left' hgroup]
        exact skipFields_tightens tag.number hinner _ input
      · rw [skip_congr_of_ne_startGroup max' max left' (left + 1) hgroup]
        exact (skip_depthless_of_ne_startGroup max (left + 1) hgroup).tightens max (left + 1)

end Payload

theorem UnknownField.read_tightens (max max' : Nat) {left left' : Nat} (hle : left ≤ left')
    (tag : Tag) : Reader.Tightens max left (UnknownField.read max left tag)
      (UnknownField.read max' left' tag) := by
  intro input
  rw [read_eq, read_eq]
  have hskip := Payload.skip_tightens max max' hle tag input
  generalize Payload.skip max left tag input = result,
    Payload.skip max' left' tag input = result' at hskip ⊢
  cases hskip with
  | exceeded hleft => exact .exceeded hleft
  | same hsettled =>
      cases hsettled with
      | ok hrest => exact .same (.ok hrest)
      | failed herror => exact .same (.failed herror)

end TestWire
