import TestWire.Decimal.Shortest

/-! # The text of a decimal -/

namespace TestWire

namespace Decimal

structure Layout where
  /-- The least place of a first digit that is written with the point in place. -/
  leastPlace : Int
  /-- The first place beyond those written with the point in place. -/
  beyondPlace : Int
  /-- Stands behind a whole number that is written with the point in place. -/
  wholeEnd : String
  exponentMark : String

def digitChars (decimal : Decimal) : List Char :=
  Nat.toDigits 10 decimal.digits

def firstPlace (decimal : Decimal) : Int :=
  decimal.exponent + decimal.digitChars.length - 1

def positional (layout : Layout) (decimal : Decimal) : String :=
  let digits := decimal.digitChars
  if 0 ≤ decimal.exponent then
    String.ofList (digits ++ List.replicate decimal.exponent.toNat '0') ++ layout.wholeEnd
  else
    let places := (-decimal.exponent).toNat
    if places < digits.length then
      let (whole, fraction) := digits.splitAt (digits.length - places)
      String.ofList (whole ++ '.' :: fraction)
    else
      String.ofList ('0' :: '.' :: List.replicate (places - digits.length) '0' ++ digits)

/-- The first digit, the point and the others if there are any, and the place of the first. -/
def scientific (layout : Layout) (decimal : Decimal) : String :=
  let mantissa :=
    match decimal.digitChars with
    | first :: second :: others => first :: '.' :: second :: others
    | digits => digits
  String.ofList mantissa ++ layout.exponentMark ++ toString decimal.firstPlace

def render (layout : Layout) (decimal : Decimal) : String :=
  if layout.leastPlace ≤ decimal.firstPlace ∧ decimal.firstPlace < layout.beyondPlace then
    decimal.positional layout
  else
    decimal.scientific layout

end Decimal

end TestWire
