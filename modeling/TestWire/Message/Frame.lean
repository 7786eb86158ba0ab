import TestWire.Message.Encode
import TestWire.Message.Merge

/-! # Frames -/

namespace TestWire

namespace Frame

def encode {s : Schema} (m : Message s) : Except EncodeError Bytes :=
  (Message.encode Limits.defaultMaxDepth m).map Varint.encodePrefixed

def read (s : Schema) (limits : DecodeLimits) : Reader (Message s) := do
  let body ← Reader.prefixed "length prefix"
  Reader.ofExcept (Message.decode s limits body)

/-- The message of the first frame, and the number of bytes the frame takes. -/
def decode (s : Schema) (limits : DecodeLimits) (input : Bytes) :
    Except DecodeError (Message s × Nat) :=
  match read s limits input with
  | .ok m rest => .ok (m, input.length - rest.length)
  | .error error _ => .error error

end Frame

structure FrameStream where
  unread : Bytes
  failed : Bool := false

namespace FrameStream

/-- The next message or its error, when the input has not ended and no frame has failed. -/
def next? (s : Schema) (limits : DecodeLimits) (stream : FrameStream) :
    Option (Except DecodeError (Message s) × FrameStream) :=
  if stream.failed || stream.unread.isEmpty then
    none
  else
    match Frame.read s limits stream.unread with
    | .ok m rest => some (.ok m, ⟨rest, false⟩)
    | .error error rest => some (.error error, ⟨rest, true⟩)

def takeItems (s : Schema) (limits : DecodeLimits) :
    Nat → FrameStream → List (Except DecodeError (Message s) × FrameStream)
  | 0, _ => []
  | bound + 1, stream =>
      match stream.next? s limits with
      | none => []
      | some (item, behind) => (item, behind) :: takeItems s limits bound behind

/-- All items, each with the stream behind it.  Each frame takes at least one byte. -/
def items (s : Schema) (limits : DecodeLimits) (stream : FrameStream) :
    List (Except DecodeError (Message s) × FrameStream) :=
  takeItems s limits (stream.unread.length + 1) stream

end FrameStream

end TestWire
