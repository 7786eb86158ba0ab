import TestWire.BitString.Literal
import TestWire.Proofs.BitString

/-! # Bitstring literals -/

namespace TestWire

namespace BitString

/-- A text that is the digits of the bits, alone or between a quote and a quote with a `B`. -/
def Literal (text : String) (bits : List Bool) : Prop :=
  text.toList = bits.map digit ∨ text.toList = '\'' :: bits.map digit ++ ['\'', 'B']

/-! ## Digits -/

theorem ofDigit?_eq_some_iff {c : Char} {bit : Bool} : ofDigit? c = some bit ↔ c = digit bit := by
  constructor
  · intro h
    unfold ofDigit? at h
    split at h
    · cases h
      rfl
    · cases h
      rfl
    · cases h
  · rintro rfl
    cases bit <;> rfl

theorem digit_ne_quote (bit : Bool) : digit bit ≠ '\'' := by
  cases bit <;> decide

theorem mapM_ofDigit?_eq_some_iff {digits : List Char} {bits : List Bool} :
    digits.mapM ofDigit? = some bits ↔ digits = bits.map digit := by
  induction digits generalizing bits with
  | nil => simp [eq_comm]
  | cons c digits ih =>
      simp only [List.mapM_cons, Option.bind_eq_bind, Option.bind_eq_some_iff, Option.pure_def,
        Option.some.injEq, ih, ofDigit?_eq_some_iff]
      constructor
      · rintro ⟨bit, rfl, bits, rfl, rfl⟩
        rfl
      · intro h
        cases bits with
        | nil => cases h
        | cons bit bits =>
            cases h
            exact ⟨bit, rfl, bits, rfl, rfl⟩

/-! ## Quotes -/

/-- What is in quotes stands between the first character and the last two, and nothing that starts
with a quote is taken as it is. -/
theorem literalDigits?_eq_some_iff {text digits : List Char} :
    literalDigits? text = some digits ↔
      (text = digits ∧ text.head? ≠ some '\'') ∨ text = '\'' :: digits ++ ['\'', 'B'] := by
  unfold literalDigits?
  split
  · next rest =>
      have hsplit := List.take_append_drop (rest.length - 2) rest
      dsimp only
      constructor
      · intro h
        split at h
        · next hending =>
            cases h
            rw [hending] at hsplit
            exact .inr (congrArg ('\'' :: ·) hsplit.symm)
        · cases h
      · rintro (⟨_, hhead⟩ | htext)
        · exact (hhead rfl).elim
        · obtain rfl : rest = digits ++ ['\'', 'B'] := by simpa using htext
          simp
  · next hquote =>
      have hhead : text.head? ≠ some '\'' := by
        intro h
        obtain ⟨rest, rfl⟩ := List.head?_eq_some_iff.mp h
        exact hquote rest rfl
      constructor
      · intro h
        cases h
        exact .inl ⟨rfl, hhead⟩
      · rintro (⟨rfl, _⟩ | rfl)
        · rfl
        · exact (hhead rfl).elim

theorem head?_digits_ne_quote (bits : List Bool) : (bits.map digit).head? ≠ some '\'' := by
  cases bits with
  | nil => exact nofun
  | cons bit bits =>
      intro h
      exact digit_ne_quote bit (Option.some.inj h)

/-! ## Literals -/

theorem literal_iff {text : String} {bits : List Bool} :
    Literal text bits ↔
      (literalDigits? text.toList >>= fun digits => digits.mapM ofDigit?) = some bits := by
  simp only [Option.bind_eq_bind, Option.bind_eq_some_iff, mapM_ofDigit?_eq_some_iff,
    exists_eq_right, literalDigits?_eq_some_iff]
  constructor
  · rintro (hbare | hquoted)
    · exact .inl ⟨hbare, hbare ▸ head?_digits_ne_quote bits⟩
    · exact .inr hquoted
  · rintro (⟨hbare, _⟩ | hquoted)
    · exact .inl hbare
    · exact .inr hquoted

theorem parse_of_literal {text : String} {bits : List Bool} (h : Literal text bits) :
    parse text = .ok (ofBits bits) := by
  rw [parse, literal_iff.mp h]

theorem parse_of_not_literal {text : String} (h : ∀ bits, ¬ Literal text bits) :
    parse text = .error ⟨text⟩ := by
  unfold parse
  split
  · next bits hbits => exact (h bits (literal_iff.mpr hbits)).elim
  · rfl

theorem literal_render (b : BitString) : Literal b.render b.bits :=
  .inr String.toList_ofList

theorem bits_ofBits {bits : List Bool} (hbits : bits.length ≤ maxCount) :
    (ofBits bits).bits = bits :=
  (packs_ofBits bits).bits_eq hbits []

theorem render_ofBits {bits : List Bool} (hbits : bits.length ≤ maxCount) :
    (ofBits bits).render.toList = '\'' :: bits.map digit ++ ['\'', 'B'] := by
  rw [render, String.toList_ofList, bits_ofBits hbits]

theorem length_bits_le_maxCount (b : BitString) : b.bits.length ≤ maxCount := by
  have hlt : b.nbits.toInt < 2 ^ 31 := b.nbits.toInt_lt
  rw [length_bits, available, maxCount]
  omega

/--
A text is accepted exactly when it is a run of binary digits, alone or in quotes with a `B` behind
them, and every other text is refused with the text as it is.  Of a run that is not too long to be
counted, the result has the bits and no unknown fields, and it is written as the run in quotes.  And
what is written of any bit string, valid or not, is read as the bits that it shows, which are never
too many to be counted.
-/
theorem parse_exact :
    (∀ text, (∃ b, parse text = .ok b) ↔ ∃ bits, Literal text bits) ∧
    (∀ text bits, Literal text bits → bits.length ≤ maxCount →
      ∃ b, parse text = .ok b ∧ b.bits = bits ∧ b.unknown = [] ∧
        b.render.toList = '\'' :: bits.map digit ++ ['\'', 'B']) ∧
    (∀ text, (∀ bits, ¬ Literal text bits) → parse text = .error ⟨text⟩) ∧
    ∀ b : BitString, b.bits.length ≤ maxCount ∧ parse b.render = .ok (ofBits b.bits) := by
  refine ⟨?_, ?_, fun _ => parse_of_not_literal, ?_⟩
  · intro text
    constructor
    · rintro ⟨b, hparse⟩
      by_contra hnone
      rw [parse_of_not_literal (not_exists.mp hnone)] at hparse
      cases hparse
    · rintro ⟨bits, hliteral⟩
      exact ⟨ofBits bits, parse_of_literal hliteral⟩
  · intro text bits hliteral hbits
    exact ⟨ofBits bits, parse_of_literal hliteral, bits_ofBits hbits, rfl, render_ofBits hbits⟩
  · intro b
    exact ⟨length_bits_le_maxCount b, parse_of_literal (literal_render b)⟩

/-- A run of four digits, quotes around no digits, and one quote for both. -/
theorem parse_exact_runs :
    (∃ b, parse "1011" = .ok b ∧ b.bits = [true, false, true, true] ∧ b.unknown = [] ∧
      b.render.toList = "'1011'B".toList) ∧
    (∃ b, parse "'1011'B" = .ok b ∧ b.bits = [true, false, true, true] ∧ b.unknown = [] ∧
      b.render.toList = "'1011'B".toList) ∧
    (∃ b, parse "''B" = .ok b ∧ b.bits = [] ∧ b.unknown = [] ∧
      b.render.toList = "''B".toList) ∧
    (∀ bits, ¬ Literal "'B" bits) ∧ parse "'B" = .error ⟨"'B"⟩ := by
  have hbare : Literal "1011" [true, false, true, true] := .inl rfl
  have hquoted : Literal "'1011'B" [true, false, true, true] := .inr rfl
  have hempty : Literal "''B" [] := .inr rfl
  have hnone : ∀ bits, ¬ Literal "'B" bits := by
    intro bits h
    have hread := literal_iff.mp h
    have hrefused : (literalDigits? "'B".toList >>= fun digits => digits.mapM ofDigit?) = none := by
      decide
    rw [hrefused] at hread
    cases hread
  exact ⟨parse_exact.2.1 _ _ hbare (by decide), parse_exact.2.1 _ _ hquoted (by decide),
    parse_exact.2.1 _ _ hempty (Nat.zero_le _), hnone, parse_exact.2.2.1 _ hnone⟩

end BitString

end TestWire
