import TestWire.Proofs.Validation
import TestWire.Value.Render

/-! # Words of the test notation

Blanks and commas stand between elements and nowhere else outside of charstrings.  So everything
that is neither a charstring nor an aggregate is one word.
-/

namespace TestWire

namespace Notation

def IsSeparator (c : Char) : Prop :=
  c = ' ' ∨ c = ','

instance : DecidablePred IsSeparator := fun c =>
  inferInstanceAs (Decidable (c = ' ' ∨ c = ','))

def Word (text : List Char) : Prop :=
  ∀ c ∈ text, ¬ IsSeparator c

instance (text : List Char) : Decidable (Word text) :=
  List.decidableBAll (fun c => ¬ IsSeparator c) text

/-- What may stand behind a value: nothing, or a text that begins with a blank or a comma. -/
def Stops (rest : List Char) : Prop :=
  ∀ c rest', rest = c :: rest' → IsSeparator c

theorem stops_nil : Stops [] :=
  nofun

theorem stops_cons {c : Char} (h : IsSeparator c) (rest : List Char) : Stops (c :: rest) := by
  intro c' rest' heq
  cases heq
  exact h

theorem Word.append {text other : List Char} (h : Word text) (hother : Word other) :
    Word (text ++ other) := by
  intro c hc
  rcases List.mem_append.mp hc with hleft | hright
  · exact h c hleft
  · exact hother c hright

theorem Word.cons {c : Char} {text : List Char} (hc : ¬ IsSeparator c) (h : Word text) :
    Word (c :: text) :=
  List.forall_mem_cons.mpr ⟨hc, h⟩

/-- A word that goes on behind what stops it is no word. -/
theorem Word.eq_nil_of_stops {word more rest : List Char} (h : Word (word ++ more))
    (hstops : Stops (more ++ rest)) : more = [] := by
  cases more with
  | nil => rfl
  | cons c more =>
      have hmem : c ∈ word ++ c :: more := List.mem_append_right _ List.mem_cons_self
      exact (h c hmem (hstops c _ rfl)).elim

theorem Word.append_inj {word word' rest rest' : List Char} (hword : Word word)
    (hword' : Word word') (hrest : Stops rest) (hrest' : Stops rest')
    (h : word ++ rest = word' ++ rest') : word = word' ∧ rest = rest' := by
  rcases List.append_eq_append_iff.mp h with ⟨more, rfl, rfl⟩ | ⟨more, rfl, rfl⟩
  · rw [hword'.eq_nil_of_stops hrest, List.append_nil]
    exact ⟨rfl, rfl⟩
  · rw [hword.eq_nil_of_stops hrest', List.append_nil]
    exact ⟨rfl, rfl⟩

/-! ## Octets -/

/-- The upper-case digit of a number below sixteen tells it, and is no separator. -/
theorem toUpper_hexDigit_inj {n n' : Nat} (hn : n < 16) (hn' : n' < 16)
    (h : (Bytes.hexDigit n).toUpper = (Bytes.hexDigit n').toUpper) : n = n' := by
  have hall : ∀ n n' : Fin 16,
      (Bytes.hexDigit n).toUpper = (Bytes.hexDigit n').toUpper → n = n' := by decide
  exact congrArg Fin.val (hall ⟨n, hn⟩ ⟨n', hn'⟩ h)

theorem not_isSeparator_hexDigit {n : Nat} (hn : n < 16) :
    ¬ IsSeparator (Bytes.hexDigit n).toUpper := by
  have hall : ∀ n : Fin 16, ¬ IsSeparator (Bytes.hexDigit n).toUpper := by decide
  exact hall ⟨n, hn⟩

theorem upperHex_inj {data data' : Bytes} (h : data.upperHex = data'.upperHex) : data = data' := by
  have hchars : (Bytes.hexChars data).map Char.toUpper = (Bytes.hexChars data').map Char.toUpper :=
    String.ofList_injective h
  clear h
  induction data generalizing data' with
  | nil =>
      cases data' with
      | nil => rfl
      | cons byte' data' => cases hchars
  | cons byte data ih =>
      cases data' with
      | nil => cases hchars
      | cons byte' data' =>
          simp only [Bytes.hexChars, List.map_cons, List.cons.injEq] at hchars
          have hlt : byte.toNat < 256 := byte.toNat_lt
          have hlt' : byte'.toNat < 256 := byte'.toNat_lt
          have hhigh := toUpper_hexDigit_inj (by omega) (by omega) hchars.1
          have hlow := toUpper_hexDigit_inj (by omega) (by omega) hchars.2.1
          have hbyte : byte = byte' := UInt8.toNat_inj.mp (by omega)
          rw [hbyte, ih hchars.2.2]

theorem word_upperHex (data : Bytes) : Word data.upperHex.toList := by
  rw [Bytes.upperHex, String.toList_ofList]
  induction data with
  | nil => exact nofun
  | cons byte data ih =>
      have hlt : byte.toNat < 256 := byte.toNat_lt
      exact .cons (not_isSeparator_hexDigit (by omega))
        (.cons (not_isSeparator_hexDigit (by omega)) ih)

/-! ## Numbers -/

theorem not_isSeparator_of_digit {c : Char} (h : '0' ≤ c ∧ c ≤ '9') : ¬ IsSeparator c := by
  rintro (rfl | rfl)
  · exact absurd h.1 (by decide)
  · exact absurd h.1 (by decide)

theorem word_of_decimal {literal : String} (h : Validation.Decimal literal) :
    Word literal.toList := by
  rcases h with ⟨digits, _, hdigits, hplain | hsigned⟩
  · rw [hplain]
    exact fun c hc => not_isSeparator_of_digit (hdigits c hc)
  · rw [hsigned]
    exact .cons (by decide) fun c hc => not_isSeparator_of_digit (hdigits c hc)

theorem repr_digits (n : Nat) :
    n.repr.toList ≠ [] ∧ ∀ c ∈ n.repr.toList, '0' ≤ c ∧ c ≤ '9' := by
  refine ⟨fun hnil => Nat.repr_ne_empty (String.toList_eq_nil_iff.mp hnil), ?_⟩
  intro c hc
  rw [Nat.repr_eq_ofList_toDigits, String.toList_ofList] at hc
  have hdigit := Nat.isDigit_of_mem_toDigits (by decide) (by decide) hc
  simpa [Char.isDigit, Char.le_def] using hdigit

theorem decimal_toString (n : Int32) : Validation.Decimal (toString n) := by
  have htext : toString n = n.toInt.repr := rfl
  rw [htext, Int.repr_eq_if]
  split
  · exact ⟨_, (repr_digits _).1, (repr_digits _).2, .inl rfl⟩
  · exact ⟨_, (repr_digits _).1, (repr_digits _).2, .inr (by rw [String.toList_append]; rfl)⟩

theorem eq_of_repr_eq {n n' : Nat} (h : n.repr = n'.repr) : n = n' := by
  -- The library's `Nat.repr_inj` comes with the whole library only.
  rw [Nat.repr_eq_ofList_toDigits, Nat.repr_eq_ofList_toDigits, String.ofList_inj] at h
  have hread := congrArg (Nat.ofDigitChars 10 · 0) h
  have hten : 1 < 10 ∧ 10 ≤ 10 := by decide
  rwa [Nat.ofDigitChars_toDigits hten.1 hten.2, Nat.ofDigitChars_toDigits hten.1 hten.2] at hread

theorem repr_ne_minus (n : Nat) (text : String) : n.repr ≠ "-" ++ text := by
  intro h
  have hminus : '-' ∈ n.repr.toList := by
    rw [h, String.toList_append]
    exact List.mem_cons_self
  exact absurd ((repr_digits n).2 _ hminus).1 (by decide)

theorem toString_int32_inj {n n' : Int32} (h : toString n = toString n') : n = n' := by
  have htext (n : Int32) : toString n = n.toInt.repr := rfl
  rw [htext, htext, Int.repr_eq_if, Int.repr_eq_if] at h
  apply Int32.toInt_inj.mp
  split at h
  · split at h
    · have hnat := eq_of_repr_eq h
      omega
    · exact (repr_ne_minus _ _ h).elim
  · split at h
    · exact (repr_ne_minus _ _ h.symm).elim
    · have hnat := eq_of_repr_eq ((String.append_right_inj _).mp h)
      omega

/-! ## Verdicts -/

def verdictWord : Verdict → List Char
  | .none => ['n', 'o', 'n', 'e']
  | .pass => ['p', 'a', 's', 's']
  | .inconc => ['i', 'n', 'c', 'o', 'n', 'c']
  | .fail => ['f', 'a', 'i', 'l']
  | .error => ['e', 'r', 'r', 'o', 'r']
  | .other ordinal =>
      ['v', 'e', 'r', 'd', 'i', 'c', 't', '('] ++ ((toString ordinal).toList ++ [')'])

theorem toList_render_verdict (v : Verdict) :
    v.render.toList = verdictWord (.ofOrdinal v.ordinal) := by
  unfold Verdict.render
  cases Verdict.ofOrdinal v.ordinal with
  | other n =>
      rw [String.toList_append, String.toList_append, List.append_assoc]
      rfl
  | _ => rfl

theorem word_verdictWord (v : Verdict) : Word (verdictWord v) := by
  cases v with
  | other n =>
      have hnumber := word_of_decimal (decimal_toString n)
      exact .append (by decide) (.append hnumber (by decide))
  | _ => decide

def initial : Verdict → Char
  | .none => 'n'
  | .pass => 'p'
  | .inconc => 'i'
  | .fail => 'f'
  | .error => 'e'
  | .other _ => 'v'

theorem head?_verdictWord (v : Verdict) : (verdictWord v).head? = some (initial v) := by
  cases v <;> rfl

/-- No two verdicts begin with one letter, but for those that are written by their number. -/
theorem verdictWord_inj {v w : Verdict} (h : verdictWord v = verdictWord w) : v = w := by
  have hinitial : initial v = initial w := by
    have hhead := congrArg List.head? h
    rw [head?_verdictWord, head?_verdictWord] at hhead
    exact Option.some.inj hhead
  cases v with
  | other n =>
      cases w with
      | other n' =>
          have hnumber := List.append_cancel_right (List.append_cancel_left h)
          rw [toString_int32_inj (String.toList_inj.mp hnumber)]
      | _ => simp [initial] at hinitial
  | _ => cases w <;> first | rfl | simp [initial] at hinitial

/-! ## Charstrings -/

/-- A quoted text ends at the first quote that is not doubled. -/
theorem escape_append_inj {text text' rest rest' : List Char}
    (hrest : ∀ more, rest ≠ '"' :: more) (hrest' : ∀ more, rest' ≠ '"' :: more)
    (h : Charstring.escape text ++ '"' :: rest = Charstring.escape text' ++ '"' :: rest') :
    text = text' ∧ rest = rest' := by
  induction text generalizing text' with
  | nil =>
      cases text' with
      | nil => exact ⟨rfl, List.tail_eq_of_cons_eq h⟩
      | cons c' text' =>
          rw [Charstring.escape, Charstring.escape] at h
          split at h
          · exact (hrest _ (List.tail_eq_of_cons_eq h)).elim
          · next hc' => exact (hc' (List.head_eq_of_cons_eq h).symm).elim
  | cons c text ih =>
      cases text' with
      | nil =>
          rw [Charstring.escape, Charstring.escape] at h
          split at h
          · exact (hrest' _ (List.tail_eq_of_cons_eq h).symm).elim
          · next hc => exact (hc (List.head_eq_of_cons_eq h)).elim
      | cons c' text' =>
          have hhead : c = c' := by
            rw [Charstring.escape, Charstring.escape] at h
            split at h <;> split at h <;> grind
          subst hhead
          have htail : Charstring.escape text ++ '"' :: rest =
              Charstring.escape text' ++ '"' :: rest' := by
            rw [Charstring.escape, Charstring.escape] at h
            split at h <;> simpa using h
          rcases ih htail with ⟨rfl, hsame⟩
          exact ⟨rfl, hsame⟩

theorem Stops.ne_quote {rest : List Char} (h : Stops rest) (more : List Char) :
    rest ≠ '"' :: more := by
  intro heq
  exact absurd (h '"' more heq) (by decide)

theorem quote_append_inj {text text' : String} {rest rest' : List Char} (hrest : Stops rest)
    (hrest' : Stops rest')
    (h : (Charstring.quote text).toList ++ rest = (Charstring.quote text').toList ++ rest') :
    text = text' ∧ rest = rest' := by
  simp only [Charstring.quote, String.toList_ofList, List.cons_append, List.append_assoc,
    List.nil_append, List.cons.injEq, true_and] at h
  rcases escape_append_inj hrest.ne_quote hrest'.ne_quote h with ⟨htext, hsame⟩
  exact ⟨String.toList_inj.mp htext, hsame⟩

end Notation

end TestWire
