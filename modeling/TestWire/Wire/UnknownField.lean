import TestWire.Wire.Payload

/-! # Unknown fields -/

namespace TestWire

/-- A field kept verbatim. -/
structure UnknownField where
  number : UInt32
  wireType : WireType
  /-- The bytes behind the tag: a varint, a word, a length and its payload, or a group's body with
  the end tag. -/
  raw : Bytes
  deriving DecidableEq, Repr

namespace UnknownField

def varint (number : UInt32) (value : UInt64) : UnknownField :=
  ⟨number, .varint, Varint.encode value⟩

def fixed64 (number : UInt32) (value : UInt64) : UnknownField :=
  ⟨number, .fixed64, Bytes.ofNatLE 8 value.toNat⟩

def fixed32 (number : UInt32) (value : UInt32) : UnknownField :=
  ⟨number, .fixed32, Bytes.ofNatLE 4 value.toNat⟩

def lengthDelimited (number : UInt32) (payload : Bytes) : UnknownField :=
  ⟨number, .lengthDelimited, Varint.encodePrefixed payload⟩

def tag (field : UnknownField) : Tag :=
  ⟨field.number, field.wireType⟩

/-- The content without its length; for other wire types, all that followed the tag. -/
def payload (field : UnknownField) : Bytes :=
  if field.wireType = .lengthDelimited then
    match Reader.prefixed "unknown field" field.raw with
    | .ok content _ => content
    | .error .. => field.raw
  else
    field.raw

def encode (field : UnknownField) : Bytes :=
  field.tag.encode ++ field.raw

def size (field : UnknownField) : Nat :=
  field.tag.size + field.raw.length

def read (max left : Nat) (tag : Tag) : Reader UnknownField := do
  let before ← get
  Payload.skip max left tag
  let after ← get
  return ⟨tag.number, tag.wireType, before.take (before.length - after.length)⟩

end UnknownField

abbrev UnknownFields := List UnknownField

namespace UnknownFields

def encode (fields : UnknownFields) : Bytes :=
  fields.flatMap UnknownField.encode

def size (fields : UnknownFields) : Nat :=
  fields.foldr (fun field size => field.size + size) 0

end UnknownFields

end TestWire
