/-! # Shortest decimals

Among the decimals that round to a binary number the shortest is taken, of two such neighbours the
closer one, and the larger one on a tie.
-/

namespace TestWire

structure Decimal where
  digits : Nat
  exponent : Int
  deriving DecidableEq, Repr

/-- The reals that round to `value`, in units of `2 ^ scale`; a `closed` interval has its ends. -/
structure RoundingInterval where
  low : Nat
  value : Nat
  high : Nat
  scale : Int
  closed : Bool
  deriving DecidableEq, Repr

namespace RoundingInterval

/-- The ends are halfway to the numbers beside it; below a power of two these lie twice as close. -/
def ofBinary (significand : Nat) (exponent : Int) (narrowBelow : Bool) : RoundingInterval where
  low := 4 * significand - (if narrowBelow then 1 else 2)
  value := 4 * significand
  high := 4 * significand + 2
  scale := exponent - 2
  closed := significand % 2 == 0

/-- Multiplied by this, interval units compare with counts of `10 ^ place` times `placeFactor`. -/
def unitFactor (interval : RoundingInterval) (place : Int) : Nat :=
  Nat.pow 2 interval.scale.toNat * Nat.pow 10 (-place).toNat

def placeFactor (interval : RoundingInterval) (place : Int) : Nat :=
  Nat.pow 2 (-interval.scale).toNat * Nat.pow 10 place.toNat

def contains (interval : RoundingInterval) (place : Int) (count : Nat) : Bool :=
  let unit := interval.unitFactor place
  let point := count * interval.placeFactor place
  if interval.closed then
    interval.low * unit ≤ point && point ≤ interval.high * unit
  else
    interval.low * unit < point && point < interval.high * unit

def nearest? (interval : RoundingInterval) (place : Int) : Option Nat :=
  let value := interval.value * interval.unitFactor place
  let step := interval.placeFactor place
  let below := value / step
  match interval.contains place below, interval.contains place (below + 1) with
  | true, true => some (if 2 * value < (2 * below + 1) * step then below else below + 1)
  | true, false => some below
  | false, true => some (below + 1)
  | false, false => none

def search (interval : RoundingInterval) : Nat → Int → Option Decimal
  | 0, _ => none
  | places + 1, place =>
      match interval.nearest? place with
      | some digits => some ⟨digits, place⟩
      | none => search interval places (place - 1)

/-- A place that is too high for any digit of the interval, by one or two places. -/
def topPlace (interval : RoundingInterval) : Int :=
  ((interval.high.log2 + 1 : Nat) + interval.scale) * 30103 / 100000 + 2

def exact (interval : RoundingInterval) : Decimal :=
  if 0 ≤ interval.scale then
    ⟨interval.value * Nat.pow 2 interval.scale.toNat, 0⟩
  else
    ⟨interval.value * Nat.pow 5 (-interval.scale).toNat, interval.scale⟩

/-- Seventeen digits do for every double, and `topPlace` is at most four places above the first. -/
def shortest (interval : RoundingInterval) : Decimal :=
  (interval.search 24 interval.topPlace).getD interval.exact

end RoundingInterval

end TestWire
