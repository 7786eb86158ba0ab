import TestWire.Wire.UnknownField

/-! # Bit strings

Bits are packed most significant first.  Nothing ties their count to the data beside it; the
operations look at the bits that both count and have data.
-/

namespace TestWire

/-- Packed bits and how many of them count. -/
structure BitString where
  data : Bytes := []
  nbits : Int32 := 0
  unknown : UnknownFields := []
  deriving DecidableEq, Repr, Inhabited

namespace BitString

def maxCount : Nat := 0x7fffffff

/-- A count of bits as it is sent, the largest one when it does not fit. -/
def countOf (n : Nat) : Int32 :=
  Int32.ofNat (min n maxCount)

def ofBytes (data : Bytes) : BitString where
  data := data
  nbits := countOf (8 * data.length)

/-- Up to eight bits in one byte, the first one most significant and zeros behind the last. -/
def packByte (bits : List Bool) : UInt8 :=
  UInt8.ofNat ((List.range 8).foldl (fun n i => 2 * n + (bits.getD i false).toNat) 0)

def packBytes : Nat → List Bool → Bytes
  | 0, _ => []
  | _ + 1, [] => []
  | places + 1, bits => packByte (bits.take 8) :: packBytes places (bits.drop 8)

def ofBits (bits : List Bool) : BitString where
  data := packBytes bits.length bits
  nbits := countOf bits.length

/-- The number of bits that count and have data. -/
def available (b : BitString) : Nat :=
  min b.nbits.toInt.toNat (8 * b.data.length)

def byteBit (byte : UInt8) (index : Nat) : Bool :=
  byte.toNat.testBit (7 - index)

def bit? (b : BitString) (index : Nat) : Option Bool :=
  if index < b.available then
    b.data[index / 8]?.map (byteBit · (index % 8))
  else
    none

def unpackBytes (data : Bytes) : List Bool :=
  data.flatMap fun byte => (List.range 8).map (byteBit byte)

def bits (b : BitString) : List Bool :=
  (unpackBytes b.data).take b.available

def isEmpty (b : BitString) : Bool :=
  b.nbits == 0 && b.data.isEmpty

end BitString

end TestWire
