import TestWire.BitString.Basic
import TestWire.Value.Basic

/-! # Validation -/

namespace TestWire

namespace Validation

def isDigit (c : Char) : Bool :=
  '0' ≤ c && c ≤ '9'

def unsigned : List Char → List Char
  | '-' :: digits => digits
  | digits => digits

/-- A big number is an optional minus sign and one decimal digit or more. -/
def bigNumber (literal : String) : Except ValidationError Unit :=
  let digits := unsigned literal.toList
  if digits.isEmpty || !digits.all isDigit then
    .error (.invalidBigNumber literal)
  else
    .ok ()

def scalar : Option Scalar → Except ValidationError Unit
  | some (.bigNumber literal) => bigNumber literal
  | _ => .ok ()

mutual

def treeSize : Value → Nat
  | .leaf .. => 1
  | .aggregate values .. => 1 + forestSize values

def forestSize : List Value → Nat
  | [] => 0
  | v :: values => treeSize v + forestSize values

end

theorem forestSize_append (values others : List Value) :
    forestSize (values ++ others) = forestSize values + forestSize others := by
  induction values with
  | nil => simp [forestSize]
  | cons v values ih => simp [forestSize, ih, Nat.add_assoc]

/-- The elements of an aggregate come before what was pending behind it: this is document order. -/
def pending : List Value → Except ValidationError Unit
  | [] => .ok ()
  | .leaf content _ :: values =>
      match scalar content with
      | .error violation => .error violation
      | .ok () => pending values
  | .aggregate elements _ _ :: values => pending (elements ++ values)
termination_by values => forestSize values
decreasing_by
  · simp [forestSize, treeSize]
  · simp only [forestSize, treeSize, forestSize_append]
    omega

def value (v : Value) : Except ValidationError Unit :=
  pending [v]

def composite (c : Composite) : Except ValidationError Unit :=
  value (.ofComposite c)

/-- The count is within the bits of the data, and needs every byte of it. -/
def bitString (b : BitString) : Except ValidationError Unit :=
  let count := b.nbits.toInt
  let available := 8 * b.data.length
  let expected := (count.toNat + 7) / 8
  if count < 0 then
    .error (.negativeBitCount b.nbits)
  else if available < count.toNat then
    .error (.bitCountExceedsData b.nbits available)
  else if expected ≠ b.data.length then
    .error (.paddingMismatch b.nbits expected b.data.length)
  else
    .ok ()

end Validation

end TestWire
