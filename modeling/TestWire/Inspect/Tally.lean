import TestWire.Value.Basic

/-! # Tallies of verdicts -/

namespace TestWire

/-- Counts by ordinal, ascending, and the overall verdict. -/
structure Tally where
  counts : List (Int32 × Nat) := []
  overall : Verdict := .none
  deriving Inhabited

namespace Tally

def bump (ordinal : Int32) : List (Int32 × Nat) → List (Int32 × Nat)
  | [] => [(ordinal, 1)]
  | (key, count) :: counts =>
      if ordinal < key then (ordinal, 1) :: (key, count) :: counts
      else if ordinal = key then (key, count + 1) :: counts
      else (key, count) :: bump ordinal counts

def addVerdict (tally : Tally) (v : Verdict) : Tally where
  counts := bump v.ordinal tally.counts
  overall := tally.overall.overwrite v

mutual

/-- Adds every verdict in a value, in document order. -/
def add (tally : Tally) : Value → Tally
  | .leaf (some (.verdict v)) _ => tally.addVerdict v
  | .leaf .. => tally
  | .aggregate values .. => addAll tally values

def addAll (tally : Tally) : List Value → Tally
  | [] => tally
  | v :: values => addAll (add tally v) values

end

def total (tally : Tally) : Nat :=
  tally.counts.foldr (fun entry total => entry.2 + total) 0

end Tally

end TestWire
