import TestWire.Error

/-! # Verdicts

The outcome of a test case, sent as a 32-bit ordinal; two verdicts of one ordinal are equal.
-/

namespace TestWire

inductive Verdict
  | none
  | pass
  | inconc
  | fail
  | error
  | other (ordinal : Int32)
  deriving Repr, Inhabited

namespace Verdict

def ordinal : Verdict → Int32
  | none => 0
  | pass => 1
  | inconc => 2
  | fail => 3
  | error => 4
  | other ordinal => ordinal

/-- The verdict of an ordinal, by its name if it has one. -/
def ofOrdinal (ordinal : Int32) : Verdict :=
  if ordinal = 0 then none
  else if ordinal = 1 then pass
  else if ordinal = 2 then inconc
  else if ordinal = 3 then fail
  else if ordinal = 4 then error
  else other ordinal

/-- Verdicts are compared by ordinal. -/
instance : BEq Verdict where
  beq a b := a.ordinal == b.ordinal

instance : Hashable Verdict where
  hash v := hash v.ordinal

theorem beq_iff {a b : Verdict} : (a == b) = true ↔ a.ordinal = b.ordinal := by
  simp [BEq.beq]

@[simp] theorem ordinal_ofOrdinal (n : Int32) : (ofOrdinal n).ordinal = n := by
  unfold ofOrdinal
  repeat' split
  all_goals simp_all [ordinal]

def isKnown (v : Verdict) : Bool :=
  0 ≤ v.ordinal && v.ordinal ≤ 4

def schemaName? (v : Verdict) : Option String :=
  match ofOrdinal v.ordinal with
  | none => some "NONE"
  | pass => some "PASS"
  | inconc => some "INCONC"
  | fail => some "FAIL"
  | error => some "ERROR"
  | other _ => Option.none

def ofSchemaName? (name : String) : Option Verdict :=
  if name = "NONE" then some none
  else if name = "PASS" then some pass
  else if name = "INCONC" then some inconc
  else if name = "FAIL" then some fail
  else if name = "ERROR" then some error
  else Option.none

def render (v : Verdict) : String :=
  match ofOrdinal v.ordinal with
  | none => "none"
  | pass => "pass"
  | inconc => "inconc"
  | fail => "fail"
  | error => "error"
  | other ordinal => s!"verdict({ordinal})"

def parse (text : String) : Except UnknownVerdict Verdict :=
  if text = "none" then .ok none
  else if text = "pass" then .ok pass
  else if text = "inconc" then .ok inconc
  else if text = "fail" then .ok fail
  else if text = "error" then .ok error
  else
    match ofSchemaName? text with
    | some verdict => .ok verdict
    | Option.none => .error ⟨text⟩

/-- How bad a verdict is: the named ones by ordinal, all others worst of all. -/
def severity (v : Verdict) : Int :=
  if v.isKnown then v.ordinal.toInt else 0x7fffffffffffffff

/-- The verdict after a further one: it only ever gets worse. -/
def overwrite (v next : Verdict) : Verdict :=
  if v.severity < next.severity then next else v

end Verdict

end TestWire
