import Mathlib.Algebra.GroupWithZero.Nat
import TestWire.Proofs.Message.FrameStream
import TestWire.Proofs.Wire.Unread

/-! # Frame by frame

A stream is moved on from call to call.  The same input can be read with no state at all: decode the
frame at its front, drop the bytes that this took, and go on.
-/

namespace TestWire

namespace Frame

variable {s : Schema} {limits : DecodeLimits}

theorem decode_eq_ok_iff {input : Bytes} {m : Message s} {taken : Nat} :
    decode s limits input = .ok (m, taken) ↔
      ∃ frame rest, input = frame ++ rest ∧ frame.length = taken ∧ Carries limits frame m := by
  unfold decode
  constructor
  · intro h
    cases hread : read s limits input with
    | error error rest => simp [hread] at h
    | ok m' rest =>
        obtain ⟨frame, rfl, hcarries⟩ := (read_reads _ _ _).mp hread
        simp only [hread, Except.ok.injEq, Prod.mk.injEq, List.length_append] at h
        obtain ⟨rfl, rfl⟩ := h
        exact ⟨frame, rest, rfl, by omega, hcarries⟩
  · intro h
    obtain ⟨frame, rest, rfl, rfl, hcarries⟩ := h
    rw [read_reads.ok_append hcarries]
    simp

theorem length_drop_lt {input : Bytes} {m : Message s} {taken : Nat}
    (h : decode s limits input = .ok (m, taken)) : (input.drop taken).length < input.length := by
  obtain ⟨frame, rest, rfl, rfl, hcarries⟩ := decode_eq_ok_iff.mp h
  have hpos := List.length_pos_iff.mpr hcarries.ne_nil
  rw [List.drop_left, List.length_append]
  omega

/-- The messages of the frames of an input, each with the bytes its frame takes, up to a failure. -/
def decodeAll (s : Schema) (limits : DecodeLimits) (input : Bytes) :
    List (Except DecodeError (Message s × Nat)) :=
  if input.isEmpty then
    []
  else
    match h : decode s limits input with
    | .error error => [.error error]
    | .ok (m, taken) =>
        have _hless : (input.drop taken).length < input.length := length_drop_lt h
        .ok (m, taken) :: decodeAll s limits (input.drop taken)
termination_by input.length
decreasing_by assumption

theorem decodeAll_nil : decodeAll s limits [] = [] := by
  rw [decodeAll]
  rfl

theorem decodeAll_of_error {input : Bytes} {error : DecodeError} (hinput : input ≠ [])
    (h : decode s limits input = .error error) : decodeAll s limits input = [.error error] := by
  rw [decodeAll, if_neg (by simpa using hinput)]
  split
  · next hdecode =>
      rw [h] at hdecode
      cases hdecode
      rfl
  · next hdecode =>
      rw [h] at hdecode
      cases hdecode

theorem decodeAll_of_ok {input : Bytes} {m : Message s} {taken : Nat}
    (h : decode s limits input = .ok (m, taken)) :
    decodeAll s limits input = .ok (m, taken) :: decodeAll s limits (input.drop taken) := by
  have hless := length_drop_lt h
  have hinput : input ≠ [] := List.length_pos_iff.mp (by omega)
  rw [decodeAll, if_neg (by simpa using hinput)]
  split
  · next hdecode =>
      rw [h] at hdecode
      cases hdecode
  · next hdecode =>
      rw [h] at hdecode
      cases hdecode
      rfl

/-- The bytes that were taken for a frame; none are dropped behind one that fails. -/
def taken : Except DecodeError (Message s × Nat) → Nat
  | .ok (_, taken) => taken
  | .error _ => 0

end Frame

namespace FrameStream

variable {s : Schema} {limits : DecodeLimits}

/-- One call: its item, if there is one, and the stream behind it, which else stays as it is. -/
def call (s : Schema) (limits : DecodeLimits) (stream : FrameStream) :
    Option (Except DecodeError (Message s)) × FrameStream :=
  match stream.next? s limits with
  | some (item, behind) => (some item, behind)
  | none => (none, stream)

def afterCalls (s : Schema) (limits : DecodeLimits) : Nat → FrameStream → FrameStream
  | 0, stream => stream
  | n + 1, stream => afterCalls s limits n (stream.call s limits).2

/-! ## One call -/

theorem next?_of_decode_eq_ok {input : Bytes} {m : Message s} {taken : Nat}
    (h : Frame.decode s limits input = .ok (m, taken)) :
    next? s limits ⟨input, false⟩ = some (.ok m, ⟨input.drop taken, false⟩) := by
  obtain ⟨frame, rest, rfl, rfl, hcarries⟩ := Frame.decode_eq_ok_iff.mp h
  rw [next?_of_carries hcarries, List.drop_left]

theorem next?_of_decode_eq_error {input : Bytes} {error : DecodeError} (hinput : input ≠ [])
    (h : Frame.decode s limits input = .error error) :
    ∃ rest, rest <:+ input ∧ next? s limits ⟨input, false⟩ = some (.error error, ⟨rest, true⟩) := by
  have hadvances : (Frame.read s limits).Advances :=
    (Reader.prefixed_advances _).bind fun _ => Reader.Advances.ofExcept _
  have hsuffix := hadvances input
  unfold Frame.decode at h
  cases hread : Frame.read s limits input with
  | ok m rest => simp [hread] at h
  | error error' rest =>
      rw [hread] at h hsuffix
      cases h
      refine ⟨rest, hsuffix, ?_⟩
      rw [next?, if_neg (by simpa using hinput), hread]

/-! ## All calls -/

/-- What the calls of a stream give, with the bytes that are taken for each message. -/
inductive Yields (limits : DecodeLimits) :
    FrameStream → List (Except DecodeError (Message s × Nat)) → Prop
  | ended {stream : FrameStream} (hnext : stream.next? s limits = none) : Yields limits stream []
  | failed {stream behind : FrameStream} {error : DecodeError}
      (hnext : stream.next? s limits = some (.error error, behind))
      (hsuffix : behind.unread <:+ stream.unread) (hended : behind.next? s limits = none) :
      Yields limits stream [.error error]
  | message {stream behind : FrameStream} {m : Message s} {frame : Bytes}
      {frames : List (Except DecodeError (Message s × Nat))}
      (hnext : stream.next? s limits = some (.ok m, behind))
      (hunread : stream.unread = frame ++ behind.unread) (hframe : frame ≠ [])
      (hrest : Yields limits behind frames) :
      Yields limits stream (.ok (m, frame.length) :: frames)

theorem yields_decodeAll (limits : DecodeLimits) (input : Bytes) :
    Yields limits ⟨input, false⟩ (Frame.decodeAll s limits input) := by
  induction input using Frame.decodeAll.induct s limits with
  | case1 input hempty =>
      obtain rfl : input = [] := by simpa using hempty
      rw [Frame.decodeAll_nil]
      exact .ended rfl
  | case2 input hempty error hdecode =>
      have hinput : input ≠ [] := by simpa using hempty
      obtain ⟨rest, hsuffix, hnext⟩ := next?_of_decode_eq_error hinput hdecode
      rw [Frame.decodeAll_of_error hinput hdecode]
      exact .failed hnext hsuffix rfl
  | case3 input _ m taken hdecode _ ih =>
      have hnext := next?_of_decode_eq_ok hdecode
      rw [Frame.decodeAll_of_ok hdecode]
      obtain ⟨frame, rest, rfl, rfl, hcarries⟩ := Frame.decode_eq_ok_iff.mp hdecode
      rw [List.drop_left] at hnext ih ⊢
      exact .message hnext rfl hcarries.ne_nil ih

section

variable {stream : FrameStream} {frames : List (Except DecodeError (Message s × Nat))}

theorem unread_ne_nil {item : Except DecodeError (Message s)} {behind : FrameStream}
    (h : stream.next? s limits = some (item, behind)) : stream.unread ≠ [] := by
  intro hnil
  simp [next?, hnil] at h

theorem call_of_next? {item : Except DecodeError (Message s)} {behind : FrameStream}
    (h : stream.next? s limits = some (item, behind)) :
    stream.call s limits = (some item, behind) := by
  rw [call, h]

theorem call_of_ended (h : stream.next? s limits = none) :
    stream.call s limits = (none, stream) := by
  rw [call, h]

theorem afterCalls_succ {item : Except DecodeError (Message s)} {behind : FrameStream}
    (h : stream.next? s limits = some (item, behind)) (n : Nat) :
    stream.afterCalls s limits (n + 1) = behind.afterCalls s limits n := by
  rw [afterCalls, call_of_next? h]

theorem afterCalls_of_ended (h : stream.next? s limits = none) (n : Nat) :
    stream.afterCalls s limits n = stream := by
  induction n with
  | zero => rfl
  | succ n ih => rw [afterCalls, call_of_ended h, ih]

theorem position_of_append {input front : Bytes} (h : input = front ++ stream.unread) :
    stream.position input = front.length := by
  rw [position, h, List.length_append, Nat.add_sub_cancel]

namespace Yields

theorem getElem?_items (h : Yields limits stream frames) (n : Nat) :
    (items s limits stream)[n]? =
      frames[n]?.map fun frame => (frame.map Prod.fst, stream.afterCalls s limits (n + 1)) := by
  induction h generalizing n with
  | ended hnext =>
      rw [items_eq, hnext]
      rfl
  | failed hnext _ hended =>
      rw [items_eq, hnext, afterCalls_succ hnext]
      dsimp only
      rw [items_eq, hended]
      cases n with
      | zero => rfl
      | succ n => rfl
  | message hnext _ _ _ ih =>
      rw [items_eq, hnext, afterCalls_succ hnext]
      cases n with
      | zero => rfl
      | succ n =>
          rw [List.getElem?_cons_succ, List.getElem?_cons_succ]
          exact ih n

theorem call_afterCalls (h : Yields limits stream frames) (n : Nat) :
    ((stream.afterCalls s limits n).call s limits).1 = frames[n]?.map (Except.map Prod.fst) := by
  induction h generalizing n with
  | ended hnext =>
      rw [afterCalls_of_ended hnext, call_of_ended hnext]
      rfl
  | failed hnext _ hended =>
      cases n with
      | zero =>
          rw [afterCalls, call_of_next? hnext]
          rfl
      | succ n =>
          rw [afterCalls_succ hnext, afterCalls_of_ended hended, call_of_ended hended]
          rfl
  | message hnext _ _ _ ih =>
      cases n with
      | zero =>
          rw [afterCalls, call_of_next? hnext]
          rfl
      | succ n => rw [afterCalls_succ hnext, ih n, List.getElem?_cons_succ]

theorem afterCalls_of_le (h : Yields limits stream frames) {n : Nat} (hn : frames.length ≤ n) :
    stream.afterCalls s limits n = stream.afterCalls s limits frames.length := by
  induction h generalizing n with
  | ended hnext => rw [afterCalls_of_ended hnext, afterCalls_of_ended hnext]
  | @failed stream behind error hnext _ hended =>
      have hbehind (n : Nat) : stream.afterCalls s limits (n + 1) = behind := by
        rw [afterCalls_succ hnext, afterCalls_of_ended hended]
      obtain ⟨n, rfl⟩ := Nat.exists_eq_add_one.mpr hn
      exact (hbehind n).trans (hbehind 0).symm
  | message hnext _ _ _ ih =>
      rw [List.length_cons] at hn
      obtain ⟨n, rfl⟩ := Nat.exists_eq_add_one.mpr (show 0 < n by omega)
      rw [List.length_cons, afterCalls_succ hnext, afterCalls_succ hnext]
      exact ih (Nat.le_of_succ_le_succ hn)

theorem unread_afterCalls (h : Yields limits stream frames) (n : Nat) :
    (stream.afterCalls s limits n).unread <:+ stream.unread := by
  induction h generalizing n with
  | ended hnext => simp only [afterCalls_of_ended hnext, List.suffix_refl]
  | failed hnext hsuffix hended =>
      cases n with
      | zero => exact List.suffix_refl _
      | succ n =>
          rw [afterCalls_succ hnext, afterCalls_of_ended hended]
          exact hsuffix
  | message hnext hunread _ _ ih =>
      cases n with
      | zero => exact List.suffix_refl _
      | succ n =>
          rw [afterCalls_succ hnext, hunread]
          exact (ih n).trans (List.suffix_append _ _)

/-- Behind a message, the frames up to and with its own are read. -/
theorem unread_eq (h : Yields limits stream frames) {n : Nat} {m : Message s} {taken : Nat}
    (hn : frames[n]? = some (.ok (m, taken))) :
    ∃ front, stream.unread = front ++ (stream.afterCalls s limits (n + 1)).unread ∧
      front.length = ((frames.take (n + 1)).map Frame.taken).sum := by
  induction h generalizing n with
  | ended hnext => cases hn
  | failed hnext _ _ => cases n <;> simp at hn
  | @message stream behind m' frame frames hnext hunread _ _ ih =>
      rw [hunread, afterCalls_succ hnext]
      cases n with
      | zero => exact ⟨frame, rfl, rfl⟩
      | succ n =>
          obtain ⟨front, hfront, hlength⟩ := ih hn
          refine ⟨frame ++ front, ?_, ?_⟩
          · rw [List.append_assoc, ← hfront]
          · rw [List.length_append, hlength, List.take_succ_cons, List.map_cons, List.sum_cons]
            rfl

theorem length_le (h : Yields limits stream frames) : frames.length ≤ stream.unread.length := by
  induction h with
  | ended _ => exact Nat.zero_le _
  | failed hnext _ _ => exact List.length_pos_iff.mpr (unread_ne_nil hnext)
  | message _ hunread hframe _ ih =>
      have hpos := List.length_pos_iff.mpr hframe
      rw [hunread, List.length_append, List.length_cons]
      omega

theorem eq_length_of_error (h : Yields limits stream frames) {n : Nat} {error : DecodeError}
    (hn : frames[n]? = some (.error error)) : n + 1 = frames.length := by
  induction h generalizing n with
  | ended _ => cases hn
  | failed _ _ _ =>
      cases n with
      | zero => rfl
      | succ n => cases hn
  | message _ _ _ _ ih =>
      cases n with
      | zero => cases hn
      | succ n => rw [List.length_cons, ih hn]

end Yields

end

/--
The items of a stream are what decoding frame by frame gives, in the same order and up to the same
error, and so are the answers of its calls one by one.  Behind a message, the stream has been read
as far as the frames up to there are long.  There are no more items than bytes, an error is the last
of them, and behind the last item calls give nothing and leave the stream where it is.  It never
stands outside of its input: unread is what stands behind its position.
-/
theorem items_frame_by_frame (limits : DecodeLimits) (input : Bytes) :
    let frames := Frame.decodeAll s limits input
    let after (n : Nat) := afterCalls s limits n ⟨input, false⟩
    (∀ n, (items s limits ⟨input, false⟩)[n]? =
      frames[n]?.map fun frame => (frame.map Prod.fst, after (n + 1))) ∧
    (∀ n, ((after n).call s limits).1 = frames[n]?.map (Except.map Prod.fst)) ∧
    (∀ n m taken, frames[n]? = some (.ok (m, taken)) →
      (after (n + 1)).position input = ((frames.take (n + 1)).map Frame.taken).sum) ∧
    frames.length ≤ input.length ∧
    (∀ n error, frames[n]? = some (.error error) → n + 1 = frames.length) ∧
    (∀ n, frames.length ≤ n → after n = after frames.length) ∧
    ∀ n, (after n).position input ≤ input.length ∧
      (after n).unread = input.drop ((after n).position input) := by
  have hyields := yields_decodeAll (s := s) limits input
  refine ⟨hyields.getElem?_items, hyields.call_afterCalls, ?_, hyields.length_le,
    fun _ _ => hyields.eq_length_of_error, fun _ => hyields.afterCalls_of_le, ?_⟩
  · intro n m taken hn
    obtain ⟨front, hfront, hlength⟩ := hyields.unread_eq hn
    exact (position_of_append hfront).trans hlength
  · intro n
    obtain ⟨front, hfront⟩ := hyields.unread_afterCalls n
    have hposition : (afterCalls s limits n ⟨input, false⟩).position input = front.length :=
      position_of_append hfront.symm
    dsimp only at hfront ⊢
    rw [hposition]
    constructor
    · rw [← hposition]
      exact Nat.sub_le _ _
    · have hunread : (front ++ (afterCalls s limits n ⟨input, false⟩).unread).drop front.length =
          (afterCalls s limits n ⟨input, false⟩).unread := List.drop_left
      rw [hfront] at hunread
      exact hunread.symm

end FrameStream

end TestWire
