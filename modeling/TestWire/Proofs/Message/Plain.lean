import TestWire.Message.Encode
import TestWire.Proofs.Wire.Varint

/-! # The plain encoder

It needs one pass: a nested message is encoded first and then put behind its tag and its length.
-/

namespace TestWire

def Tag.encodeNested (tag : Tag) (body : Bytes) : Bytes :=
  tag.encode ++ Varint.encodePrefixed body

/-- The field of a scalar; an empty octetstring has none. -/
def Scalar.plain (scalar : Scalar) : Bytes :=
  if scalar.isOmitted then [] else scalar.case.tag.encode ++ scalar.payload

mutual

def Value.plain : Value → Bytes
  | .leaf content unknown => content.elim [] Scalar.plain ++ UnknownFields.encode unknown
  | .aggregate values inner unknown =>
      Case.aggregate.tag.encodeNested (Value.plainAll values ++ UnknownFields.encode inner) ++
        UnknownFields.encode unknown

def Value.plainAll : List Value → Bytes
  | [] => []
  | v :: values => Composite.elementTag.encodeNested v.plain ++ Value.plainAll values

end

def Composite.plain (c : Composite) : Bytes :=
  Value.plainAll c.values ++ UnknownFields.encode c.unknown

def BitString.plain (b : BitString) : Bytes :=
  (if b.data.isEmpty then [] else dataTag.encode ++ Varint.encodePrefixed b.data) ++
    (if b.nbits = 0 then [] else nbitsTag.encode ++ Varint.encodeInt32 b.nbits) ++
    UnknownFields.encode b.unknown

/-- The encoding of a message, in which every nested message is encoded on its own first. -/
def Message.plain : {s : Schema} → Message s → Bytes
  | .value, v => Value.plain v
  | .composite, c => Composite.plain c
  | .bits, b => BitString.plain b

/-! ## Sizes of nested messages -/

mutual

def Value.nestedSizes : Value → List Nat
  | .leaf _ _ => []
  | .aggregate values inner _ =>
      (Composite.plain ⟨values, inner⟩).length :: Value.nestedSizesAll values

def Value.nestedSizesAll : List Value → List Nat
  | [] => []
  | v :: values => v.plain.length :: (v.nestedSizes ++ Value.nestedSizesAll values)

end

/-- The sizes of the messages nested in a message, in the order of writing. -/
def Message.nestedSizes : {s : Schema} → Message s → List Nat
  | .value, v => Value.nestedSizes v
  | .composite, c => Value.nestedSizesAll (Composite.values c)
  | .bits, _ => []

/-! ## Sizes and bytes -/

@[simp] theorem Tag.length_encode (tag : Tag) : tag.encode.length = tag.size :=
  Varint.length_encode tag.raw

@[simp] theorem Tag.length_encodeNested (tag : Tag) (body : Bytes) :
    (tag.encodeNested body).length = tag.size + Varint.prefixedSize body.length := by
  simp [Tag.encodeNested]

@[simp] theorem UnknownField.length_encode (field : UnknownField) :
    field.encode.length = field.size := by
  simp [UnknownField.encode, UnknownField.size]

@[simp] theorem UnknownFields.encode_nil : UnknownFields.encode [] = [] := rfl

@[simp] theorem UnknownFields.encode_cons (field : UnknownField) (fields : UnknownFields) :
    UnknownFields.encode (field :: fields) = field.encode ++ UnknownFields.encode fields := rfl

theorem Bytes.length_ofString (text : String) :
    (Bytes.ofString text).length = text.utf8ByteSize := by
  rfl

theorem Scalar.length_payload (scalar : Scalar) : scalar.payload.length = scalar.payloadSize := by
  cases scalar with
  | octets data => simp [payload, payloadSize]
  | boolean value => cases value <;> decide
  | verdict v => simp [payload, payloadSize]
  | text content => simp [payload, payloadSize, Bytes.length_ofString]
  | real value => simp [payload, payloadSize]
  | integer value => simp [payload, payloadSize]
  | bigNumber literal => simp [payload, payloadSize, Bytes.length_ofString]

theorem Scalar.length_plain (scalar : Scalar) : scalar.plain.length = scalar.fieldSize := by
  unfold Scalar.plain Scalar.fieldSize
  split
  · rfl
  · rw [List.length_append, Tag.length_encode, Scalar.length_payload]

/-! ## Writing -/

namespace Writer

theorem ext_toBytes {w w' : Writer} (h : w.toBytes = w'.toBytes) : w = w' := by
  rcases w with ⟨buffer⟩
  rcases w' with ⟨buffer'⟩
  exact congrArg Writer.mk (Array.toList_inj.mp h)

theorem bytes_bytes (w : Writer) (bs bs' : Bytes) :
    (w.bytes bs).bytes bs' = w.bytes (bs ++ bs') :=
  ext_toBytes (by simp)

theorem unknownFields_eq_bytes (w : Writer) (fields : UnknownFields) :
    w.unknownFields fields = w.bytes (UnknownFields.encode fields) :=
  ext_toBytes (by simp)

theorem bytes_nil (w : Writer) : w.bytes [] = w :=
  ext_toBytes (by simp)

end Writer

end TestWire
