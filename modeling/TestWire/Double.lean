import TestWire.Decimal.Layout

/-! # Doubles

IEEE 754 doubles as their 64 bits, so that the payload of a NaN and the sign of a zero are kept.
-/

namespace TestWire

structure Double where
  bits : UInt64
  deriving DecidableEq, Repr, Inhabited

namespace Double

def isNegative (x : Double) : Bool :=
  x.bits.toNat >>> 63 == 1

def exponentField (x : Double) : Nat :=
  (x.bits.toNat >>> 52) % 0x800

def fractionField (x : Double) : Nat :=
  x.bits.toNat % 0x10000000000000

def isNaN (x : Double) : Bool :=
  x.exponentField == 2047 && x.fractionField != 0

def isInfinite (x : Double) : Bool :=
  x.exponentField == 2047 && x.fractionField == 0

def isZero (x : Double) : Bool :=
  x.exponentField == 0 && x.fractionField == 0

instance : BEq Double where
  beq x y := !x.isNaN && !y.isNaN && (x.bits == y.bits || (x.isZero && y.isZero))

def interval (x : Double) : RoundingInterval :=
  if x.exponentField = 0 then
    .ofBinary x.fractionField (-1074) false
  else
    .ofBinary (0x10000000000000 + x.fractionField) (x.exponentField - 1075)
      (x.fractionField == 0 && 1 < x.exponentField)

/-- The point is in place from a ten-thousandth up to ten thousand million million. -/
def layout : Decimal.Layout where
  leastPlace := -4
  beyondPlace := 16
  wholeEnd := ".0"
  exponentMark := "e"

def renderMagnitude (x : Double) : String :=
  if x.isZero then
    "0" ++ layout.wholeEnd
  else
    x.interval.shortest.render layout

def render (x : Double) : String :=
  if x.isNaN then
    "not_a_number"
  else
    (if x.isNegative then "-" else "") ++
      (if x.isInfinite then "infinity" else x.renderMagnitude)

end Double

end TestWire
