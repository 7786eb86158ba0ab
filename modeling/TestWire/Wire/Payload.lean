import TestWire.Wire.Tag

/-! # Payloads of fields that no schema knows -/

namespace TestWire

namespace Payload

/-- Passes over at most `bound` fields of group `number` and over the end tag that closes it. -/
def skipFields (inner : Tag → Reader Unit) (number : UInt32) : Nat → Reader Unit
  | 0 => throw (.unterminatedGroup number)
  | bound + 1 => do
      if (← get).isEmpty then
        throw (.unterminatedGroup number)
      else
        match ← Tag.read with
        | none => throw (.invalidTag 0)
        | some tag =>
            if tag.wireType = .endGroup then
              if tag.number = number then return () else throw (.invalidTag tag.raw)
            else
              inner tag
              skipFields inner number bound

/-- Passes over what follows `tag`, with `left` of the `max` levels of nesting still to use. -/
def skip (max left : Nat) (tag : Tag) : Reader Unit :=
  match tag.wireType with
  | .varint => discard (Reader.varint "unknown varint")
  | .fixed64 => discard (Reader.bytes 8 "unknown fixed64")
  | .fixed32 => discard (Reader.bytes 4 "unknown fixed32")
  | .lengthDelimited => discard (Reader.prefixed "unknown length-delimited")
  | .endGroup => throw (.invalidTag tag.raw)
  | .startGroup =>
      match left with
      | 0 => throw (.depthExceeded max)
      | left + 1 => do
          let bound := (← get).length + 1
          skipFields (skip max left) tag.number bound

end Payload

end TestWire
