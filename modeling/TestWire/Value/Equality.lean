import TestWire.Value.Basic

/-! # Equality of values -/

namespace TestWire

namespace Scalar

def beq : Scalar → Scalar → Bool
  | octets a, octets b => a == b
  | boolean a, boolean b => a == b
  | verdict a, verdict b => a == b
  | text a, text b => a == b
  | real a, real b => a == b
  | integer a, integer b => a == b
  | bigNumber a, bigNumber b => a == b
  | _, _ => false

instance : BEq Scalar := ⟨beq⟩

end Scalar

namespace Value

mutual

def beq : Value → Value → Bool
  | leaf content unknown, leaf content' unknown' => content == content' && unknown == unknown'
  | aggregate values inner unknown, aggregate values' inner' unknown' =>
      beqAll values values' && inner == inner' && unknown == unknown'
  | _, _ => false

def beqAll : List Value → List Value → Bool
  | [], [] => true
  | v :: values, v' :: values' => beq v v' && beqAll values values'
  | _, _ => false

end

instance : BEq Value := ⟨beq⟩

end Value

instance : BEq Composite where
  beq a b := Value.beqAll a.values b.values && a.unknown == b.unknown

end TestWire
