/-! # Byte strings -/

namespace TestWire

abbrev Bytes := List UInt8

namespace Bytes

def split? (n : Nat) (bytes : Bytes) : Option (Bytes × Bytes) :=
  let front := bytes.take n
  if front.length = n then some (front, bytes.drop n) else none

theorem split?_eq_some_iff {n : Nat} {bytes front rest : Bytes} :
    split? n bytes = some (front, rest) ↔ bytes = front ++ rest ∧ front.length = n := by
  simp only [split?]
  constructor
  · intro h
    split at h
    · next hlen =>
        cases h
        exact ⟨(List.take_append_drop n bytes).symm, hlen⟩
    · cases h
  · rintro ⟨rfl, rfl⟩
    simp

theorem split?_eq_none_iff {n : Nat} {bytes : Bytes} :
    split? n bytes = none ↔ bytes.length < n := by
  simp only [split?]
  split
  · next hlen =>
      rw [List.length_take] at hlen
      simp
      omega
  · next hlen =>
      rw [List.length_take] at hlen
      simp
      omega

/-- The number written least significant byte first. -/
def toNatLE : Bytes → Nat
  | [] => 0
  | byte :: rest => byte.toNat + 256 * toNatLE rest

def ofNatLE : Nat → Nat → Bytes
  | 0, _ => []
  | width + 1, n => UInt8.ofNat (n % 256) :: ofNatLE width (n / 256)

@[simp] theorem length_ofNatLE (width n : Nat) : (ofNatLE width n).length = width := by
  induction width generalizing n with
  | zero => rfl
  | succ width ih => simp [ofNatLE, ih]

theorem ofNatLE_toNatLE (bytes : Bytes) : ofNatLE bytes.length (toNatLE bytes) = bytes := by
  induction bytes with
  | nil => rfl
  | cons byte rest ih =>
      have hlt : byte.toNat < 256 := byte.toNat_lt_size
      have hmod : (byte.toNat + 256 * toNatLE rest) % 256 = byte.toNat := by omega
      have hdiv : (byte.toNat + 256 * toNatLE rest) / 256 = toNatLE rest := by omega
      rw [List.length_cons, toNatLE, ofNatLE, hmod, hdiv, ih, UInt8.ofNat_toNat]

def ofString (text : String) : Bytes :=
  text.toUTF8.data.toList

/-- The text these bytes spell in UTF-8. -/
def toString? (bytes : Bytes) : Option String :=
  String.fromUTF8? ⟨bytes.toArray⟩

theorem toString?_eq_some_iff {bytes : Bytes} {text : String} :
    toString? bytes = some text ↔ bytes = ofString text := by
  unfold toString? ofString String.fromUTF8?
  constructor
  · intro h
    split at h
    · cases h
      simp [String.fromUTF8, String.toUTF8]
    · cases h
  · rintro rfl
    exact dif_pos text.isValidUTF8

@[simp] theorem toString?_ofString (text : String) : toString? (ofString text) = some text :=
  toString?_eq_some_iff.mpr rfl

def hexDigit (n : Nat) : Char :=
  Nat.digitChar n

def hexChars : Bytes → List Char
  | [] => []
  | byte :: rest => hexDigit (byte.toNat / 16) :: hexDigit (byte.toNat % 16) :: hexChars rest

def hex (bytes : Bytes) : String :=
  String.ofList (hexChars bytes)

def upperHex (bytes : Bytes) : String :=
  String.ofList ((hexChars bytes).map Char.toUpper)

end Bytes

end TestWire
