import TestWire.Proofs.Message.FieldRow
import TestWire.Proofs.Wire.Cursor

/-! # Rounds of a loop

The fields of a message and of a group are taken in a loop that says itself when it is done.  The
bound that the definitions count down from is never reached.
-/

namespace TestWire

/-- Rounds that each give the state of the next one, and then a round that gives the result. -/
inductive Loop {σ τ : Type} (round : σ → σ ⊕ τ) : Nat → σ → τ → Prop
  | ends {state : σ} {result : τ} (hround : round state = .inr result) : Loop round 0 state result
  | goesOn {rounds : Nat} {state next : σ} {result : τ} (hround : round state = .inl next)
      (hrest : Loop round rounds next result) : Loop round (rounds + 1) state result

namespace Loop

variable {σ τ : Type} {round : σ → σ ⊕ τ}

/-- A loop whose rounds shrink the state ends, with what counting down from a bound gives. -/
theorem of_bounded (bounded : Nat → σ → τ) (size : σ → Nat)
    (hbounded : ∀ bound state, bounded (bound + 1) state = (round state).elim (bounded bound) id)
    (hshrinks : ∀ {state next}, round state = .inl next → size next + 2 ≤ size state)
    {bound : Nat} {state : σ} (hbound : size state < bound) :
    ∃ rounds, 2 * rounds ≤ size state ∧ Loop round rounds state (bounded bound state) := by
  -- The bound falls by one a round and the size by two, so the size stays below it.
  induction bound generalizing state with
  | zero => omega
  | succ bound ih =>
      rw [hbounded]
      cases hround : round state with
      | inr result => exact ⟨0, Nat.zero_le _, .ends hround⟩
      | inl next =>
          have hless := hshrinks hround
          have hnext : size next < bound := by omega
          rcases ih hnext with ⟨rounds, hrounds, hrest⟩
          exact ⟨rounds + 1, by omega, .goesOn hround hrest⟩

end Loop

/-! ## The fields of a group -/

namespace Payload

/-- Passes over one field of group `number`, or ends at its end tag or with an error. -/
def round (inner : Tag → Reader Unit) (number : UInt32) (input : Bytes) :
    Bytes ⊕ EStateM.Result DecodeError Bytes Unit :=
  if input.isEmpty then
    .inr (.error (.unterminatedGroup number) input)
  else
    match Tag.read input with
    | .error error rest => .inr (.error error rest)
    | .ok none rest => .inr (.error (.invalidTag 0) rest)
    | .ok (some tag) rest =>
        if tag.wireType = .endGroup then
          .inr (if tag.number = number then .ok () rest else .error (.invalidTag tag.raw) rest)
        else
          match inner tag rest with
          | .error error rest => .inr (.error error rest)
          | .ok () rest => .inl rest

theorem skipFields_succ_eq_round (inner : Tag → Reader Unit) (number : UInt32) (bound : Nat)
    (input : Bytes) :
    skipFields inner number (bound + 1) input =
      (round inner number input).elim (skipFields inner number bound) id := by
  rw [skipFields_succ]
  unfold round
  by_cases hempty : input.isEmpty
  · rw [if_pos hempty, if_pos hempty]
    rfl
  · rw [if_neg hempty, if_neg hempty]
    cases Tag.read input with
    | error error rest => rfl
    | ok tag? rest =>
        cases tag? with
        | none => rfl
        | some tag =>
            dsimp only
            by_cases hend : tag.wireType = .endGroup
            · rw [if_pos hend, if_pos hend]
              rfl
            · rw [if_neg hend, if_neg hend]
              cases inner tag rest <;> rfl

theorem length_of_round {inner : Tag → Reader Unit}
    (hinner : ∀ {tag input rest}, inner tag input = .ok () rest → rest.length < input.length)
    {number : UInt32} {input rest : Bytes} (h : round inner number input = .inl rest) :
    rest.length + 2 ≤ input.length := by
  unfold round at h
  split at h
  · cases h
  · split at h
    · cases h
    · cases h
    · next tag behind hread =>
        have htag := Tag.length_lt_of_read hread
        split at h
        · cases h
        · split at h
          · cases h
          · next after hskip =>
              cases h
              have hfield := hinner hskip
              omega

theorem skip_loop (max left : Nat) (number : UInt32) (input : Bytes) :
    ∃ rounds, 2 * rounds ≤ input.length ∧
      Loop (round (skip max left) number) rounds input
        (skip max (left + 1) ⟨number, .startGroup⟩ input) := by
  rw [skip_startGroup max left rfl]
  exact Loop.of_bounded (skipFields (skip max left) number) List.length
    (skipFields_succ_eq_round (skip max left) number) (length_of_round length_lt_of_skip)
    (Nat.lt_succ_self _)

end Payload

/-! ## The fields of a message -/

namespace Merged

variable {μ : Type} {step : Step μ}

/-- Takes one field of a message, or ends where its fields end or with an error. -/
def round (step : Step μ) (state : μ × Bytes) : (μ × Bytes) ⊕ Merged μ Unit :=
  match advance step state.1 state.2 with
  | ⟨m, .error error⟩ => .inr ⟨m, .error error⟩
  | ⟨m, .ok none⟩ => .inr ⟨m, .ok ()⟩
  | ⟨m, .ok (some rest)⟩ => .inl (m, rest)

theorem fields_succ_eq_round (step : Step μ) (bound : Nat) (state : μ × Bytes) :
    Function.uncurry (fields step (bound + 1)) state =
      (round step state).elim (Function.uncurry (fields step bound)) id := by
  unfold Function.uncurry round
  rw [fields_succ]
  rcases advance step state.1 state.2 with ⟨m, error | _ | rest⟩
  · rfl
  · rfl
  · rfl

theorem advance_of_round {state next : μ × Bytes} (h : round step state = .inl next) :
    advance step state.1 state.2 = ⟨next.1, .ok (some next.2)⟩ := by
  unfold round at h
  split at h
  · cases h
  · cases h
  · next hadvance =>
      cases h
      exact hadvance

end Merged

namespace Message

variable {s : Schema}

def mergeBelow (max left : Nat) : {s : Schema} → Merged.Region (Message s)
  | .value => Value.merge max left
  | .composite => Composite.merge max left
  | .bits => BitString.merge max left

theorem mergeBelow_eq_region (max left : Nat) :
    (mergeBelow max left : Merged.Region (Message s)) = Merged.region (mergeField max left) := by
  cases s with
  | value => exact merge_value_eq_region max left
  | composite => exact merge_composite_eq_region max left
  | bits => rfl

theorem length_of_round {max left : Nat} {state next : Message s × Bytes}
    (h : Merged.round (mergeField max left) state = .inl next) :
    next.2.length + 2 ≤ state.2.length := by
  rcases Merged.advance_eq_ok_some_iff.mp (Merged.advance_of_round h) with
    ⟨tag, front, behind, hinput, hfront, _, hstep⟩
  rcases (mergeField_takes s max left _ _ _ _ _).mp hstep with ⟨payload, rfl, hform⟩
  rcases hform.payload_form with ⟨_, hpayload⟩
  have htag := hfront.length_pos
  have hfield := hpayload.length_pos
  rw [hinput, List.length_append, List.length_append]
  omega

theorem merge_loop (max left : Nat) (m : Message s) (input : Bytes) :
    ∃ rounds, 2 * rounds ≤ input.length ∧
      Loop (Merged.round (mergeField max left)) rounds (m, input)
        (mergeBelow max left m input) := by
  have hbound : (m, input).2.length < input.length + 1 := Nat.lt_succ_self _
  rw [mergeBelow_eq_region]
  exact Loop.of_bounded (fun bound => Function.uncurry (Merged.fields (mergeField max left) bound))
    (fun state => state.2.length) (Merged.fields_succ_eq_round (mergeField max left))
    length_of_round hbound

end Message

namespace Cursor

/--
Operations in a row, failing ones among them, move a cursor forward inside of its buffer, so what
stands between two positions is a slice of it and an index is only read in front of the end.  A
fixed number of bytes is read as a whole or not at all, a varint takes ten bytes at most, and a
payload that fails leaves the cursor behind its length, or behind itself when its text is not UTF-8.
What a successful operation gives depends on the bytes it passes alone.  Tags and payloads take a
byte at least, and so the loops over the fields of groups and messages end on every input.
-/
theorem stays_in_buffer (c : Cursor) :
    (∀ ops, (c.readAll ops).buffer = c.buffer ∧ c.position ≤ (c.readAll ops).position ∧
      (c.readAll ops).position ≤ c.buffer.length ∧
      c.unread =
        c.buffer.extract c.position (c.readAll ops).position ++ (c.readAll ops).unread) ∧
    (∀ context, c.read (.byte context) =
      if h : c.position < c.buffer.length then
        (.ok c.buffer[c.position], ⟨c.buffer, c.position + 1, h⟩)
      else
        (.error (.truncated context), c)) ∧
    (∀ n context, c.read (.bytes n context) =
      if h : c.position + n ≤ c.buffer.length then
        (.ok (c.buffer.extract c.position (c.position + n)), ⟨c.buffer, c.position + n, h⟩)
      else
        (.error (.truncated context), c)) ∧
    (∀ (α : Type) (op : Reader.Operation α) error, op.IsFixed → (c.read op).1 = .error error →
      (c.read op).2 = c) ∧
    (∀ context, (c.read (.varint context)).2.position ≤ c.position + Limits.maxVarintBytes) ∧
    (∀ field length, (c.read (.varint field)).1 = .ok length →
      c.read (.prefixed field) =
        (c.read (.varint field)).2.read (.bytes length.toNat field) ∧
      (∀ error, (c.read (.prefixed field)).1 = .error error →
        error = .truncated field ∧ (c.read (.prefixed field)).2 = (c.read (.varint field)).2) ∧
      ((c.read (.text field)).1 = .error (.truncated field) →
        (c.read (.text field)).2 = (c.read (.varint field)).2)) ∧
    (∀ field, (c.read (.text field)).1 = .error (.invalidUtf8 field) →
      (c.read (.text field)).2 = (c.read (.prefixed field)).2 ∧
      ∃ content, (c.read (.prefixed field)).1 = .ok content) ∧
    (∀ (α : Type) (op : Reader.Operation α) a, (c.read op).1 = .ok a → ∀ d : Cursor,
      c.buffer.extract c.position (c.read op).2.position <+: d.unread →
      (d.read op).1 = .ok a ∧
        (d.read op).2.position - d.position = (c.read op).2.position - c.position) ∧
    (∀ tag?, (c.read .tag).1 = .ok tag? → c.position < (c.read .tag).2.position) ∧
    (∀ max left tag, (c.read (.skip max left tag)).1 = .ok () →
      c.position < (c.read (.skip max left tag)).2.position) ∧
    (∀ max left number, ∃ rounds, 2 * rounds ≤ c.unread.length ∧
      Loop (Payload.round (Payload.skip max left) number) rounds c.unread
        (Payload.skip max (left + 1) ⟨number, .startGroup⟩ c.unread)) ∧
    ∀ (s : Schema) max left (m : Message s), ∃ rounds, 2 * rounds ≤ c.unread.length ∧
      Loop (Merged.round (Message.mergeField max left)) rounds (m, c.unread)
        (Message.mergeBelow max left m c.unread) := by
  refine ⟨fun ops => ?_, c.read_byte, c.read_bytes, ?_, c.position_read_varint_le, ?_, ?_, ?_, ?_,
    ?_, ?_, ?_⟩
  · have hreaches := c.reaches_readAll ops
    have hle := (c.readAll ops).position_le
    rw [hreaches.buffer_eq] at hle
    exact ⟨hreaches.buffer_eq, hreaches.position_le, hle, hreaches.unread_eq⟩
  · intro α op error hfixed herror
    exact read_of_isFixed hfixed herror
  · intro field length hlength
    refine ⟨read_prefixed hlength, fun error => read_prefixed_of_error hlength, fun htext => ?_⟩
    rcases read_text_of_error htext with ⟨hstop, hprefixed | ⟨hfalse, _⟩⟩
    · exact hstop.trans (read_prefixed_of_error hlength hprefixed).2
    · cases hfalse
  · intro field htext
    rcases read_text_of_error htext with ⟨hstop, hfalse | ⟨_, hcontent⟩⟩
    · exact (Reader.prefixed_ne_invalidUtf8 (read_eq_error_iff.mp hfalse)).elim
    · exact ⟨hstop, hcontent⟩
  · intro α op a hok d hfront
    exact read_of_prefix hok hfront
  · intro tag? hok
    exact position_lt_read hok Tag.length_lt_of_read
  · intro max left tag hok
    exact position_lt_read hok Payload.length_lt_of_skip
  · intro max left number
    exact Payload.skip_loop max left number c.unread
  · intro s max left m
    exact Message.merge_loop max left m c.unread

/-- A length that runs past the end of its buffer, and a text that is not UTF-8. -/
theorem stays_in_buffer_short_and_garbled :
    let short : Cursor := ⟨[8, 0x81, 1], 0, by decide⟩
    let garbled : Cursor := ⟨[2, 0xff, 0xfe, 7], 0, by decide⟩
    let later : Cursor := ⟨[9, 2, 0xff, 0xfe], 1, by decide⟩
    (short.read (.fixed64 "data")).2 = short ∧
    (short.read (.prefixed "data")).2 = (short.read (.varint "data")).2 ∧
    (short.read (.text "data")).2 = (short.read (.varint "data")).2 ∧
    (garbled.read (.text "data")).2 = (garbled.read (.prefixed "data")).2 ∧
    (later.read (.prefixed "data")).1 = .ok [0xff, 0xfe] ∧
    short.position < (short.read .tag).2.position ∧
    short.position < (short.read (.skip 0 0 ⟨1, .varint⟩)).2.position := by
  intro short garbled later
  have hlength : (short.read (.varint "data")).1 = .ok 8 := rfl
  rcases short.stays_in_buffer with
    ⟨_, _, _, hfixed, _, hprefixed, _, _, htag, hskip, _⟩
  rcases garbled.stays_in_buffer with ⟨_, _, _, _, _, _, htext, hlocal, _⟩
  refine ⟨hfixed _ (.fixed64 "data") (.truncated "data") trivial rfl,
    ((hprefixed _ _ hlength).2.1 _ rfl).2, (hprefixed _ _ hlength).2.2 rfl, (htext _ rfl).1,
    (hlocal _ (.prefixed "data") _ rfl later ⟨[], rfl⟩).1, htag (some ⟨1, .varint⟩) rfl,
    hskip _ _ _ rfl⟩

end Cursor

end TestWire
