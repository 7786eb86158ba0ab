import TestWire.Wire.UnknownField

/-! # Writers -/

namespace TestWire

structure Writer where
  buffer : Array UInt8 := #[]

namespace Writer

def toBytes (writer : Writer) : Bytes :=
  writer.buffer.toList

def size (writer : Writer) : Nat :=
  writer.buffer.size

def byte (writer : Writer) (byte : UInt8) : Writer :=
  ⟨writer.buffer.push byte⟩

def bytes (writer : Writer) (bytes : Bytes) : Writer :=
  ⟨writer.buffer.appendList bytes⟩

def varint (writer : Writer) (value : UInt64) : Writer :=
  writer.bytes (Varint.encode value)

def int32 (writer : Writer) (value : Int32) : Writer :=
  writer.bytes (Varint.encodeInt32 value)

def fixed64 (writer : Writer) (value : UInt64) : Writer :=
  writer.bytes (Bytes.ofNatLE 8 value.toNat)

def fixed32 (writer : Writer) (value : UInt32) : Writer :=
  writer.bytes (Bytes.ofNatLE 4 value.toNat)

def prefixed (writer : Writer) (payload : Bytes) : Writer :=
  (writer.varint (UInt64.ofNat payload.length)).bytes payload

def text (writer : Writer) (text : String) : Writer :=
  writer.prefixed (Bytes.ofString text)

def tag (writer : Writer) (tag : Tag) : Writer :=
  writer.bytes tag.encode

def unknownField (writer : Writer) (field : UnknownField) : Writer :=
  (writer.tag field.tag).bytes field.raw

def unknownFields (writer : Writer) (fields : UnknownFields) : Writer :=
  fields.foldl unknownField writer

/-! ## What is written -/

@[simp] theorem toBytes_empty : ({} : Writer).toBytes = [] := rfl

@[simp] theorem toBytes_byte (w : Writer) (b : UInt8) : (w.byte b).toBytes = w.toBytes ++ [b] := by
  simp [byte, toBytes]

@[simp] theorem toBytes_bytes (w : Writer) (bs : Bytes) :
    (w.bytes bs).toBytes = w.toBytes ++ bs := by
  simp [bytes, toBytes]

@[simp] theorem toBytes_varint (w : Writer) (value : UInt64) :
    (w.varint value).toBytes = w.toBytes ++ Varint.encode value := by
  simp [varint]

@[simp] theorem toBytes_int32 (w : Writer) (value : Int32) :
    (w.int32 value).toBytes = w.toBytes ++ Varint.encodeInt32 value := by
  simp [int32]

@[simp] theorem toBytes_prefixed (w : Writer) (payload : Bytes) :
    (w.prefixed payload).toBytes = w.toBytes ++ Varint.encodePrefixed payload := by
  simp [prefixed, Varint.encodePrefixed]

@[simp] theorem toBytes_tag (w : Writer) (t : Tag) :
    (w.tag t).toBytes = w.toBytes ++ t.encode := by
  simp [tag]

@[simp] theorem toBytes_unknownField (w : Writer) (field : UnknownField) :
    (w.unknownField field).toBytes = w.toBytes ++ field.encode := by
  simp [unknownField, UnknownField.encode]

@[simp] theorem toBytes_unknownFields (w : Writer) (fields : UnknownFields) :
    (w.unknownFields fields).toBytes = w.toBytes ++ UnknownFields.encode fields := by
  induction fields generalizing w with
  | nil => simp [unknownFields, UnknownFields.encode]
  | cons field fields ih =>
      have hrest := ih (w.unknownField field)
      simp only [unknownFields, UnknownFields.encode, List.foldl_cons, List.flatMap_cons] at hrest ⊢
      rw [hrest, toBytes_unknownField, List.append_assoc]

theorem size_eq (w : Writer) : w.size = w.toBytes.length := by
  simp [size, toBytes]

end Writer

end TestWire
