import TestWire.Proofs.Wire.UnknownField

/-! # What a read leaves unread

A read takes bytes off the front and gives none back, neither when it succeeds nor when it fails.
-/

namespace TestWire

namespace Reader

variable {α β : Type}

/-- The bytes that are still to be read, however the read ended. -/
def unread : EStateM.Result DecodeError Bytes α → Bytes
  | .ok _ rest => rest
  | .error _ rest => rest

/-- The read takes its bytes off the front, also when it fails. -/
def Advances (read : Reader α) : Prop :=
  ∀ input, unread (read input) <:+ input

namespace Advances

theorem pure (a : α) : Advances (Pure.pure a) :=
  fun input => List.suffix_refl input

theorem throw (error : DecodeError) : Advances (throw error : Reader α) :=
  fun input => List.suffix_refl input

theorem ofExcept (answer : Except DecodeError α) : (ofExcept answer).Advances := by
  cases answer with
  | ok a => exact pure a
  | error error => exact Advances.throw error

theorem bind {read : Reader α} {next : α → Reader β} (hread : read.Advances)
    (hnext : ∀ a, (next a).Advances) : Advances (read >>= next) := by
  intro input
  have hfirst := hread input
  rw [bind_apply]
  cases hresult : read input with
  | error error rest =>
      rw [hresult] at hfirst
      exact hfirst
  | ok a rest =>
      rw [hresult] at hfirst
      exact (hnext a rest).trans hfirst

theorem map {read : Reader α} (h : read.Advances) (f : α → β) : Advances (f <$> read) := by
  rw [map_eq_pure_bind]
  exact h.bind fun a => pure (f a)

end Advances

/-! ## The readers -/

theorem byte_advances (context : String) : (byte context).Advances := by
  intro input
  cases input with
  | nil => exact List.suffix_refl []
  | cons b input => exact List.suffix_cons b input

theorem bytes_advances (n : Nat) (context : String) : (bytes n context).Advances := by
  intro input
  unfold bytes
  cases hsplit : input.split? n with
  | none => exact List.suffix_refl input
  | some parts =>
      obtain ⟨rfl, _⟩ := Bytes.split?_eq_some_iff.mp hsplit
      exact List.suffix_append parts.1 parts.2

theorem varintDigits_advances (context : String) (places : Nat) :
    (varintDigits context places).Advances := by
  induction places with
  | zero => exact Advances.throw _
  | succ places ih =>
      apply (byte_advances context).bind
      intro b
      by_cases htop : places = 0 ∧ 1 < b.toNat % 128
      · simp only [if_pos htop]
        exact Advances.throw _
      · simp only [if_neg htop]
        by_cases hlast : b.toNat < 128
        · simp only [if_pos hlast]
          exact Advances.pure _
        · simp only [if_neg hlast]
          exact ih.bind fun n => Advances.pure _

theorem varint_advances (context : String) : (varint context).Advances :=
  (varintDigits_advances context _).map _

theorem prefixed_advances (field : String) : (prefixed field).Advances :=
  (varint_advances field).bind fun length => bytes_advances length.toNat field

theorem text_advances (field : String) : (text field).Advances := by
  apply (prefixed_advances field).bind
  intro content
  cases content.toString? with
  | none => exact Advances.throw _
  | some text => exact Advances.pure text

/-! ## Reads that fail -/

/-- A read that fails takes nothing. -/
def KeepsPlace (read : Reader α) : Prop :=
  ∀ input error rest, read input = .error error rest → rest = input

theorem byte_keepsPlace (context : String) : (byte context).KeepsPlace := by
  intro input error rest h
  cases input with
  | nil =>
      cases h
      rfl
  | cons b input => cases h

theorem bytes_keepsPlace (n : Nat) (context : String) : (bytes n context).KeepsPlace := by
  intro input error rest h
  unfold bytes at h
  split at h
  · cases h
  · cases h
    rfl

theorem map_eq_error_iff {read : Reader α} {f : α → β} {input rest : Bytes}
    {error : DecodeError} : (f <$> read) input = .error error rest ↔
      read input = .error error rest := by
  rw [map_eq_pure_bind, bind_apply]
  cases read input with
  | ok a behind => simp [Pure.pure, EStateM.pure]
  | error e behind => simp

theorem KeepsPlace.map {read : Reader α} (h : read.KeepsPlace) (f : α → β) :
    KeepsPlace (f <$> read) := by
  intro input error rest hmap
  exact h input error rest (map_eq_error_iff.mp hmap)

theorem bytes_eq_error_iff {n : Nat} {context : String} {input rest : Bytes}
    {error : DecodeError} : bytes n context input = .error error rest ↔
      input.length < n ∧ error = .truncated context ∧ rest = input := by
  rw [← Bytes.split?_eq_none_iff]
  unfold bytes
  cases input.split? n with
  | none => simp [eq_comm]
  | some parts => simp

/-- Behind a complete length a read can only fail for want of bytes, and then it stands there. -/
theorem prefixed_eq_error_iff {field : String} {input rest : Bytes} {error : DecodeError} :
    prefixed field input = .error error rest ↔
      varint field input = .error error rest ∨
      ∃ length, varint field input = .ok length rest ∧ rest.length < length.toNat ∧
        error = .truncated field := by
  rw [prefixed, bind_apply]
  cases varint field input with
  | error e behind => simp
  | ok length behind =>
      dsimp only
      rw [bytes_eq_error_iff]
      constructor
      · rintro ⟨hshort, rfl, rfl⟩
        exact .inr ⟨length, rfl, hshort, rfl⟩
      · rintro (hfalse | ⟨_, hlength, hshort, rfl⟩)
        · cases hfalse
        · cases hlength
          exact ⟨hshort, rfl, rfl⟩

/-- Text that is complete can only fail for not being UTF-8, and then it has been passed. -/
theorem text_eq_error_iff {field : String} {input rest : Bytes} {error : DecodeError} :
    text field input = .error error rest ↔
      prefixed field input = .error error rest ∨
      ∃ content, prefixed field input = .ok content rest ∧ content.toString? = none ∧
        error = .invalidUtf8 field := by
  rw [text, bind_apply]
  cases prefixed field input with
  | error e behind => simp
  | ok content behind =>
      dsimp only
      cases htext : content.toString? with
      | some text => simp [htext, Pure.pure, EStateM.pure]
      | none =>
          constructor
          · intro h
            cases h
            exact .inr ⟨content, rfl, htext, rfl⟩
          · rintro (hfalse | ⟨_, hcontent, _, rfl⟩)
            · cases hfalse
            · cases hcontent
              rfl

end Reader

/-! ## Unknown fields -/

theorem Tag.read_advances : Tag.read.Advances :=
  (Reader.varint_advances "tag").bind fun raw => Reader.Advances.ofExcept (ofRaw raw)

namespace Payload

theorem skipFields_advances {inner : Tag → Reader Unit} (hinner : ∀ tag, (inner tag).Advances)
    (number : UInt32) (bound : Nat) : (skipFields inner number bound).Advances := by
  induction bound with
  | zero => exact Reader.Advances.throw _
  | succ bound ih =>
      intro input
      have htag := Tag.read_advances input
      rw [skipFields_succ]
      by_cases hempty : input.isEmpty
      · rw [if_pos hempty]
        exact List.suffix_refl input
      · rw [if_neg hempty]
        cases hread : Tag.read input with
        | error error rest =>
            rw [hread] at htag
            exact htag
        | ok tag? rest =>
            rw [hread] at htag
            cases tag? with
            | none => exact htag
            | some tag =>
                dsimp only
                by_cases hend : tag.wireType = .endGroup
                · rw [if_pos hend]
                  by_cases hnumber : tag.number = number
                  · rw [if_pos hnumber]
                    exact htag
                  · rw [if_neg hnumber]
                    exact htag
                · rw [if_neg hend]
                  have hskip := hinner tag rest
                  cases hresult : inner tag rest with
                  | error error behind =>
                      rw [hresult] at hskip
                      exact hskip.trans htag
                  | ok _ behind =>
                      rw [hresult] at hskip
                      exact (ih behind).trans (hskip.trans htag)

theorem skip_advances_of_ne_startGroup (max left : Nat) {tag : Tag}
    (h : tag.wireType ≠ .startGroup) : (skip max left tag).Advances := by
  unfold skip
  cases hwire : tag.wireType with
  | varint => exact (Reader.varint_advances _).map _
  | fixed64 => exact (Reader.bytes_advances 8 _).map _
  | fixed32 => exact (Reader.bytes_advances 4 _).map _
  | lengthDelimited => exact (Reader.prefixed_advances _).map _
  | startGroup => exact (h hwire).elim
  | endGroup => exact Reader.Advances.throw _

theorem skip_advances (max left : Nat) (tag : Tag) : (skip max left tag).Advances := by
  induction left generalizing tag with
  | zero =>
      by_cases hgroup : tag.wireType = .startGroup
      · unfold skip
        rw [hgroup]
        exact Reader.Advances.throw _
      · exact skip_advances_of_ne_startGroup max 0 hgroup
  | succ left ih =>
      by_cases hgroup : tag.wireType = .startGroup
      · intro input
        rw [skip_startGroup max left hgroup]
        exact skipFields_advances ih tag.number (input.length + 1) input
      · exact skip_advances_of_ne_startGroup max (left + 1) hgroup

end Payload

theorem UnknownField.read_advances (max left : Nat) (tag : Tag) :
    (UnknownField.read max left tag).Advances := by
  intro input
  have hskip := Payload.skip_advances max left tag input
  rw [UnknownField.read_eq]
  cases hresult : Payload.skip max left tag input with
  | error error rest =>
      rw [hresult] at hskip
      exact hskip
  | ok _ rest =>
      rw [hresult] at hskip
      exact hskip

end TestWire
