import TestWire.Bytes
import TestWire.Limits

/-! # Varints -/

namespace TestWire

namespace Varint

def digits : Nat → Nat → Bytes
  | 0, _ => []
  | places + 1, n =>
      if n < 128 then
        [UInt8.ofNat n]
      else
        UInt8.ofNat (n % 128 + 128) :: digits places (n / 128)

def encode (value : UInt64) : Bytes :=
  digits Limits.maxVarintBytes value.toNat

/-- The number of bytes of the shortest varint: seven bits a byte, and zero takes one. -/
def size (value : UInt64) : Nat :=
  value.toNat.log2 / 7 + 1

/-- A signed 32-bit integer is sent as the 64-bit word with its sign extended. -/
def ofInt32 (value : Int32) : UInt64 :=
  value.toInt64.toUInt64

def toInt32 (word : UInt64) : Int32 :=
  word.toUInt32.toInt32

def encodeInt32 (value : Int32) : Bytes :=
  encode (ofInt32 value)

def int32Size (value : Int32) : Nat :=
  size (ofInt32 value)

def encodePrefixed (payload : Bytes) : Bytes :=
  encode (UInt64.ofNat payload.length) ++ payload

def prefixedSize (length : Nat) : Nat :=
  size (UInt64.ofNat length) + length

end Varint

end TestWire
