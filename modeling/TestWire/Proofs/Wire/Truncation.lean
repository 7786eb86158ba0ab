import TestWire.Proofs.Wire.UnknownField

/-! # Reads of inputs that are cut short

Of an input that can be read, a piece from the front either is read in the same way, or ends inside
what the read takes; then the read fails because its input is truncated.
-/

namespace TestWire

theorem DecodeError.category_eq_truncated_iff {error : DecodeError} :
    error.category = .truncated ↔
      (∃ context, error = .truncated context) ∨ ∃ number, error = .unterminatedGroup number := by
  cases error <;> simp [category]

namespace Reader

variable {α β : Type}

def RunsOut (read : Reader α) (input : Bytes) : Prop :=
  ∃ error rest, read input = .error error rest ∧ error.category = .truncated

/--
Of an input that `whole` reads, `piece` reads a piece from the front in the same way, or runs out of
it.
-/
def CutsTo (whole piece : Reader α) : Prop :=
  ∀ (cut missing : Bytes) (a : α) (rest : Bytes), whole (cut ++ missing) = .ok a rest →
    (∃ between, piece cut = .ok a between ∧ rest = between ++ missing) ∨ piece.RunsOut cut

/-- The read sees for itself that an input is cut short. -/
abbrev FindsCut (read : Reader α) : Prop :=
  CutsTo read read

namespace CutsTo

theorem pure (a : α) : FindsCut (Pure.pure a) := by
  intro cut missing a rest h
  cases h
  exact .inl ⟨cut, rfl, rfl⟩

theorem throw (error : DecodeError) (piece : Reader α) : CutsTo (throw error) piece := by
  intro cut missing a rest h
  cases h

theorem ofExcept (answer : Except DecodeError α) : FindsCut (ofExcept answer) := by
  cases answer with
  | ok a => exact pure a
  | error error => exact CutsTo.throw error _

theorem bind {whole piece : Reader α} {next next' : α → Reader β} (hread : CutsTo whole piece)
    (hnext : ∀ a, CutsTo (next a) (next' a)) : CutsTo (whole >>= next) (piece >>= next') := by
  intro cut missing b rest h
  rw [bind_apply] at h
  split at h
  · next a middle hr =>
      rcases hread _ _ _ _ hr with ⟨between, hcut, rfl⟩ | ⟨error, after, hcut, herror⟩
      · unfold RunsOut
        simp only [bind_apply, hcut]
        exact hnext a _ _ _ _ h
      · exact .inr ⟨error, after, by rw [bind_apply, hcut], herror⟩
  · cases h

theorem map {read : Reader α} (h : read.FindsCut) (f : α → β) : FindsCut (f <$> read) := by
  rw [map_eq_pure_bind]
  exact h.bind fun a => pure (f a)

theorem discard {read : Reader α} (h : read.FindsCut) : FindsCut (discard read) :=
  h.map fun _ => ()

end CutsTo

/-! ## The readers -/

theorem bytes_findsCut (n : Nat) (context : String) : (bytes n context).FindsCut := by
  intro cut missing content rest h
  obtain ⟨front, hinput, rfl, hlength⟩ := (bytes_reads n context _ _ _).mp h
  by_cases hshort : cut.length < n
  · refine .inr ⟨.truncated context, cut, ?_, rfl⟩
    rw [bytes, Bytes.split?_eq_none_iff.mpr hshort]
  · have hle : front.length ≤ cut.length := by omega
    have hprefix : front <+: cut :=
      List.prefix_of_prefix_length_le ⟨rest, hinput.symm⟩ (List.prefix_append cut missing) hle
    obtain ⟨between, rfl⟩ := hprefix
    rw [List.append_assoc, List.append_cancel_left_eq] at hinput
    exact .inl ⟨between, (bytes_reads n context).ok_append ⟨rfl, hlength⟩ between, hinput.symm⟩

theorem varintDigits_findsCut (context : String) (places : Nat) :
    (varintDigits context places).FindsCut := by
  induction places with
  | zero => exact CutsTo.throw _ _
  | succ places ih =>
      intro cut missing n rest h
      cases cut with
      | nil => exact .inr ⟨.truncated context, [], rfl, rfl⟩
      | cons b cut =>
          unfold RunsOut
          rw [List.cons_append, varintDigits_cons] at h
          simp only [varintDigits_cons]
          split at h
          · cases h
          · next htop =>
              rw [if_neg htop]
              split at h
              · next hlast =>
                  cases h
                  rw [if_pos hlast]
                  exact .inl ⟨cut, rfl, rfl⟩
              · next hmore =>
                  rw [if_neg hmore]
                  split at h
                  · next m after hr =>
                      cases h
                      rcases ih _ _ _ _ hr with ⟨between, hcut, rfl⟩ | ⟨error, after', hcut, herror⟩
                      · exact .inl ⟨between, by rw [hcut], rfl⟩
                      · exact .inr ⟨error, after', by rw [hcut], herror⟩
                  · cases h

theorem varint_findsCut (context : String) : (varint context).FindsCut :=
  (varintDigits_findsCut context _).map _

theorem int32_findsCut (context : String) : (int32 context).FindsCut :=
  (varint_findsCut context).map _

theorem fixed64_findsCut (context : String) : (fixed64 context).FindsCut :=
  (bytes_findsCut 8 context).map _

theorem prefixed_findsCut (field : String) : (prefixed field).FindsCut :=
  (varint_findsCut field).bind fun length => bytes_findsCut length.toNat field

theorem text_findsCut (field : String) : (text field).FindsCut := by
  refine (prefixed_findsCut field).bind fun content => ?_
  cases content.toString? with
  | none => exact CutsTo.throw _ _
  | some text => exact CutsTo.pure text

end Reader

theorem Tag.read_findsCut : Tag.read.FindsCut :=
  (Reader.varint_findsCut "tag").bind fun raw => Reader.CutsTo.ofExcept (ofRaw raw)

/-! ## Unknown fields -/

namespace Payload

/-- What stands behind a tag inside group `number`; `others` passes over the fields that follow. -/
def skipTagged (inner : Tag → Reader Unit) (number : UInt32) (others : Reader Unit) :
    Option Tag → Reader Unit
  | none => throw (.invalidTag 0)
  | some tag =>
      if tag.wireType = .endGroup then
        if tag.number = number then return () else throw (.invalidTag tag.raw)
      else do
        inner tag
        others

section

variable {inner : Tag → Reader Unit} (number : UInt32)

theorem skipFields_cons (bound : Nat) (b : UInt8) (input : Bytes) :
    skipFields inner number (bound + 1) (b :: input) =
      (Tag.read >>= skipTagged inner number (skipFields inner number bound)) (b :: input) := rfl

variable (hinner : ∀ tag, (inner tag).FindsCut)

include hinner

theorem skipTagged_cutsTo {whole piece : Reader Unit} (hothers : Reader.CutsTo whole piece)
    (tag? : Option Tag) :
    Reader.CutsTo (skipTagged inner number whole tag?) (skipTagged inner number piece tag?) := by
  unfold skipTagged
  cases tag? with
  | none => exact Reader.CutsTo.throw _ _
  | some tag =>
      by_cases hend : tag.wireType = .endGroup
      · by_cases hnumber : tag.number = number
        · simp only [if_pos hend, if_pos hnumber]
          exact Reader.CutsTo.pure ()
        · simp only [if_pos hend, if_neg hnumber]
          exact Reader.CutsTo.throw _ _
      · simp only [if_neg hend]
        exact (hinner tag).bind fun _ => hothers

/--
A group that is cut short between its fields is not terminated.  The bounds on the number of fields
come from inputs of different lengths.
-/
theorem skipFields_cutsTo (bound bound' : Nat) :
    Reader.CutsTo (skipFields inner number bound) (skipFields inner number bound') := by
  induction bound generalizing bound' with
  | zero => exact Reader.CutsTo.throw _ _
  | succ bound ih =>
      intro cut missing a rest h
      cases bound' with
      | zero => exact .inr ⟨.unterminatedGroup number, cut, rfl, rfl⟩
      | succ bound' =>
          cases cut with
          | nil => exact .inr ⟨.unterminatedGroup number, [], rfl, rfl⟩
          | cons b cut =>
              have hfields := Tag.read_findsCut.bind (skipTagged_cutsTo number hinner (ih bound'))
              unfold Reader.RunsOut
              rw [skipFields_cons]
              exact hfields (b :: cut) missing a rest h

end

theorem skip_findsCut_of_ne_startGroup (max left : Nat) {tag : Tag}
    (h : tag.wireType ≠ .startGroup) : (skip max left tag).FindsCut := by
  unfold skip
  cases hwire : tag.wireType with
  | varint => exact (Reader.varint_findsCut _).discard
  | fixed64 => exact (Reader.bytes_findsCut 8 _).discard
  | fixed32 => exact (Reader.bytes_findsCut 4 _).discard
  | lengthDelimited => exact (Reader.prefixed_findsCut _).discard
  | startGroup => exact (h hwire).elim
  | endGroup => exact Reader.CutsTo.throw _ _

theorem skip_findsCut (max left : Nat) (tag : Tag) : (skip max left tag).FindsCut := by
  induction left generalizing tag with
  | zero =>
      by_cases hgroup : tag.wireType = .startGroup
      · unfold skip
        rw [hgroup]
        exact Reader.CutsTo.throw _ _
      · exact skip_findsCut_of_ne_startGroup max 0 hgroup
  | succ left ih =>
      by_cases hgroup : tag.wireType = .startGroup
      · intro cut missing a rest h
        unfold Reader.RunsOut
        rw [skip_startGroup max left hgroup] at h ⊢
        exact skipFields_cutsTo tag.number ih _ _ cut missing a rest h
      · exact skip_findsCut_of_ne_startGroup max (left + 1) hgroup

end Payload

theorem UnknownField.read_findsCut (max left : Nat) (tag : Tag) :
    (UnknownField.read max left tag).FindsCut := by
  intro cut missing field rest h
  unfold Reader.RunsOut
  rw [read_eq] at h ⊢
  split at h
  · next behind hskip =>
      cases h
      rcases Payload.skip_findsCut max left tag _ _ _ _ hskip with
        ⟨between, hcut, rfl⟩ | ⟨error, after, hcut, herror⟩
      · have hlength : (cut ++ missing).length - (between ++ missing).length =
            cut.length - between.length := by
          simp only [List.length_append]
          omega
        rw [hcut, hlength, List.take_append_of_le_length (Nat.sub_le _ _)]
        exact .inl ⟨between, rfl, rfl⟩
      · rw [hcut]
        exact .inr ⟨error, after, rfl, herror⟩
  · cases h

end TestWire
