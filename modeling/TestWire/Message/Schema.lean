import TestWire.BitString.Literal
import TestWire.Validation
import TestWire.Value.Equality
import TestWire.Value.Render

/-! # Messages -/

namespace TestWire

inductive Schema
  | value
  | composite
  | bits
  deriving DecidableEq, Repr

namespace Schema

def name : Schema → String
  | value => "ntt.Value"
  | composite => "ntt.Composite"
  | bits => "ntt.BinaryString"

end Schema

namespace Composite

def elementTag : Tag :=
  ⟨1, .lengthDelimited⟩

end Composite

namespace BitString

def dataTag : Tag :=
  ⟨1, .lengthDelimited⟩

def nbitsTag : Tag :=
  ⟨2, .varint⟩

end BitString

/-- Whether a message of this type reads the field of a tag as one of its own. -/
def Schema.knows : Schema → Tag → Bool
  | value, tag => (Case.ofTag? tag).isSome
  | composite, tag => tag == Composite.elementTag
  | bits, tag => tag == BitString.dataTag || tag == BitString.nbitsTag

abbrev Message : Schema → Type
  | .value => Value
  | .composite => Composite
  | .bits => BitString

namespace Message

def empty : (s : Schema) → Message s
  | .value => Value.unset
  | .composite => {}
  | .bits => {}

def unknown : {s : Schema} → Message s → UnknownFields
  | .value, v => Value.unknown v
  | .composite, c => Composite.unknown c
  | .bits, b => BitString.unknown b

def withUnknown : {s : Schema} → Message s → UnknownFields → Message s
  | .value, v, unknown => Value.withUnknown v unknown
  | .composite, c, unknown => ({ c with unknown := unknown } : Composite)
  | .bits, b, unknown => ({ b with unknown := unknown } : BitString)

def beq : {s : Schema} → Message s → Message s → Bool
  | .value, (a : Value), (b : Value) => a == b
  | .composite, (a : Composite), (b : Composite) => a == b
  | .bits, (a : BitString), (b : BitString) => a == b

def render : {s : Schema} → Message s → String
  | .value, v => Value.render v
  | .composite, c => Composite.render c
  | .bits, b => BitString.render b

def validate : {s : Schema} → Message s → Except ValidationError Unit
  | .value, v => Validation.value v
  | .composite, c => Validation.composite c
  | .bits, b => Validation.bitString b

end Message

end TestWire
