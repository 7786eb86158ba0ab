import TestWire.Error
import TestWire.Wire.Varint

/-! # Readers

A reader takes what it needs off the front of the unread bytes, which outlive a failure.  A read of
a fixed number of bytes that fails takes nothing, a failed varint has taken the bytes it looked at,
and a payload that is cut short leaves the reader behind its length.
-/

namespace TestWire

/-- A read off the front of the unread bytes. -/
abbrev Reader (α : Type) := EStateM DecodeError Bytes α

namespace Reader

def ofExcept {α : Type} : Except DecodeError α → Reader α
  | .ok a => pure a
  | .error error => throw error

def byte (context : String) : Reader UInt8
  | [] => .error (.truncated context) []
  | byte :: rest => .ok byte rest

def bytes (n : Nat) (context : String) : Reader Bytes := fun input =>
  match input.split? n with
  | some (front, rest) => .ok front rest
  | none => .error (.truncated context) input

/-- The byte in the last place may only hold the top bit of a 64-bit word. -/
def varintDigits (context : String) : Nat → Reader Nat
  | 0 => throw (.malformedVarint context)
  | places + 1 => do
      let byte ← Reader.byte context
      let digit := byte.toNat % 128
      if places = 0 ∧ 1 < digit then
        throw (.malformedVarint context)
      else if byte.toNat < 128 then
        return digit
      else
        return digit + 128 * (← varintDigits context places)

def varint (context : String) : Reader UInt64 := do
  return UInt64.ofNat (← varintDigits context Limits.maxVarintBytes)

/-- A signed integer, of which the varint's low 32 bits count. -/
def int32 (context : String) : Reader Int32 := do
  return Varint.toInt32 (← varint context)

def fixed64 (context : String) : Reader UInt64 := do
  return UInt64.ofNat (← bytes 8 context).toNatLE

def fixed32 (context : String) : Reader UInt32 := do
  return UInt32.ofNat (← bytes 4 context).toNatLE

def prefixed (field : String) : Reader Bytes := do
  let length ← varint field
  bytes length.toNat field

def text (field : String) : Reader String := do
  match (← prefixed field).toString? with
  | some text => return text
  | none => throw (.invalidUtf8 field)

end Reader

end TestWire
