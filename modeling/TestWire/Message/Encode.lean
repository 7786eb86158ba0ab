import TestWire.Message.Schema
import TestWire.Wire.Writer

/-! # Encoding

A nested message stands behind its size.  So a message is measured first, which records the sizes of
all nested messages in the order of writing, and finds what has no encoding.
-/

namespace TestWire

/-! ## Measuring -/

/-- The sizes recorded so far, or the reason why there is no encoding. -/
abbrev Measure (α : Type) := StateT (Array Nat) (Except EncodeError) α

namespace Measure

def enter (max : Nat) : Nat → Except EncodeError Nat
  | 0 => .error (.depthExceeded max)
  | left + 1 => .ok left

/-- Records the size of a nested message, in a place that is taken before it is looked into. -/
def nested (tag : Tag) (body : Measure Nat) : Measure Nat := do
  let slot := (← get).size
  modify (·.push 0)
  let size ← body
  modify (·.setIfInBounds slot size)
  return tag.size + Varint.prefixedSize size

end Measure

/-- Each field has to have a valid number and a tag that is not one of the message's own. -/
def Schema.unknownSize (s : Schema) : UnknownFields → Except EncodeError Nat
  | [] => .ok 0
  | field :: fields =>
      if field.number = 0 ∨ Limits.maxFieldNumber < field.number.toNat then
        .error (.invalidFieldNumber field.number)
      else if s.knows field.tag then
        .error (.knownFieldConflict s.name field.number)
      else
        (s.unknownSize fields).map (field.size + ·)

namespace Scalar

def payload : Scalar → Bytes
  | octets data => Varint.encodePrefixed data
  | boolean value => Varint.encode (if value then 1 else 0)
  | verdict v => Varint.encodeInt32 v.ordinal
  | text content => Varint.encodePrefixed (Bytes.ofString content)
  | real value => Bytes.ofNatLE 8 value.bits.toNat
  | integer value => Varint.encodeInt32 value
  | bigNumber literal => Varint.encodePrefixed (Bytes.ofString literal)

def payloadSize : Scalar → Nat
  | octets data => Varint.prefixedSize data.length
  | boolean _ => 1
  | verdict v => Varint.int32Size v.ordinal
  | text content => Varint.prefixedSize content.utf8ByteSize
  | real _ => 8
  | integer value => Varint.int32Size value
  | bigNumber literal => Varint.prefixedSize literal.utf8ByteSize

/-- An empty octetstring has no field of its own: on the wire it is a value that holds nothing. -/
def isOmitted : Scalar → Bool
  | octets [] => true
  | _ => false

def fieldSize (scalar : Scalar) : Nat :=
  if scalar.isOmitted then 0 else scalar.case.tag.size + scalar.payloadSize

end Scalar

mutual

/-- Measures a value, with `left` of the `max` levels of nesting still to use. -/
def Value.measure (max : Nat) : Nat → Value → Measure Nat
  | _, .leaf content unknown => do
      return (content.map Scalar.fieldSize).getD 0 + (← Schema.value.unknownSize unknown)
  | left, .aggregate values inner unknown => do
      let deeper ← Measure.enter max left
      let size ← Measure.nested Case.aggregate.tag do
        let elements ← Value.measureAll max deeper 0 values
        return elements + (← Schema.composite.unknownSize inner)
      return size + (← Schema.value.unknownSize unknown)

def Value.measureAll (max : Nat) : Nat → Nat → List Value → Measure Nat
  | _, total, [] => return total
  | left, total, v :: values => do
      let deeper ← Measure.enter max left
      let size ← Measure.nested Composite.elementTag (Value.measure max deeper v)
      Value.measureAll max left (total + size) values

end

def Composite.measure (max left : Nat) (c : Composite) : Measure Nat := do
  let elements ← Value.measureAll max left 0 c.values
  return elements + (← Schema.composite.unknownSize c.unknown)

def BitString.measure (b : BitString) : Measure Nat := do
  let unknown ← Schema.bits.unknownSize b.unknown
  let data := if b.data.isEmpty then 0 else dataTag.size + Varint.prefixedSize b.data.length
  let nbits := if b.nbits = 0 then 0 else nbitsTag.size + Varint.int32Size b.nbits
  return unknown + data + nbits

/-! ## Writing -/

/-- The sizes still to be taken, and what is written. -/
structure Output where
  sizes : List Nat
  writer : Writer := {}

namespace Output

def startNested (out : Output) (tag : Tag) : Output where
  sizes := out.sizes.tail
  writer := (out.writer.tag tag).varint (UInt64.ofNat (out.sizes.headD 0))

def scalar (out : Output) (scalar : Scalar) : Output :=
  if scalar.isOmitted then
    out
  else
    { out with writer := (out.writer.tag scalar.case.tag).bytes scalar.payload }

def unknownFields (out : Output) (fields : UnknownFields) : Output :=
  { out with writer := out.writer.unknownFields fields }

end Output

mutual

def Value.write : Value → Output → Output
  | .leaf content unknown, out => (content.elim out out.scalar).unknownFields unknown
  | .aggregate values inner unknown, out =>
      let composite := Value.writeAll values (out.startNested Case.aggregate.tag)
      (composite.unknownFields inner).unknownFields unknown

def Value.writeAll : List Value → Output → Output
  | [], out => out
  | v :: values, out =>
      Value.writeAll values (Value.write v (out.startNested Composite.elementTag))

end

def Composite.write (c : Composite) (out : Output) : Output :=
  (Value.writeAll c.values out).unknownFields c.unknown

def BitString.write (b : BitString) (out : Output) : Output :=
  let writer := out.writer
  let writer := if b.data.isEmpty then writer else (writer.tag dataTag).prefixed b.data
  let writer := if b.nbits = 0 then writer else (writer.tag nbitsTag).int32 b.nbits
  { out with writer := writer.unknownFields b.unknown }

namespace Message

def measure (max : Nat) : {s : Schema} → Message s → Measure Nat
  | .value, v => Value.measure max max v
  | .composite, c => Composite.measure max max c
  | .bits, b => BitString.measure b

def write : {s : Schema} → Message s → Output → Output
  | .value, v => Value.write v
  | .composite, c => Composite.write c
  | .bits, b => BitString.write b

/-- The size of a message and those of the messages nested in it, in the order of writing. -/
def sizes {s : Schema} (maxDepth : Nat) (m : Message s) : Except EncodeError (Nat × Array Nat) :=
  (measure maxDepth m).run #[]

def encodedSize {s : Schema} (maxDepth : Nat) (m : Message s) : Except EncodeError Nat :=
  (sizes maxDepth m).map Prod.fst

def encode {s : Schema} (maxDepth : Nat) (m : Message s) : Except EncodeError Bytes := do
  let (size, nested) ← sizes maxDepth m
  if Limits.maxEncodedSize < size then
    .error (.messageTooLarge size Limits.maxEncodedSize)
  else
    return (write m ⟨nested.toList, {}⟩).writer.toBytes

end Message

end TestWire
