import TestWire.Text.Diagnostic

/-! # Errors -/

namespace TestWire

inductive DecodeError.Category
  | truncated
  | malformed
  | invalidUtf8
  | limitExceeded
  deriving DecidableEq, Repr

def DecodeError.Category.name : DecodeError.Category → String
  | .truncated => "truncated"
  | .malformed => "malformed"
  | .invalidUtf8 => "invalid-utf8"
  | .limitExceeded => "limit-exceeded"

inductive DecodeError
  | truncated (context : String)
  | malformedVarint (context : String)
  | invalidUtf8 (field : String)
  | depthExceeded (max : Nat)
  | lengthExceedsLimit (field : String) (length max : Nat)
  | invalidWireType (code : Nat)
  | invalidTag (raw : UInt64)
  | unterminatedGroup (number : UInt32)
  deriving DecidableEq, Repr

namespace DecodeError

/-- The class of a failure; a group without its end counts as cut short. -/
def category : DecodeError → Category
  | truncated _ | unterminatedGroup _ => .truncated
  | invalidUtf8 _ => .invalidUtf8
  | depthExceeded _ | lengthExceedsLimit .. => .limitExceeded
  | malformedVarint _ | invalidWireType _ | invalidTag _ => .malformed

def message : DecodeError → String
  | truncated context => s!"unexpected end of input while reading {context}"
  | malformedVarint context => s!"malformed varint while reading {context}"
  | invalidUtf8 field => s!"invalid UTF-8 in {field}"
  | depthExceeded max => s!"message nesting exceeds maximum depth {max}"
  | lengthExceedsLimit field length max => s!"{field} length {length} exceeds maximum {max}"
  | invalidWireType code => s!"invalid wire type {code}"
  | invalidTag raw => "invalid tag 0x" ++ String.ofList (Nat.toDigits 16 raw.toNat)
  | unterminatedGroup number => s!"group for field {number} is not terminated"

end DecodeError

inductive EncodeError
  | invalidUtf8 (field : String)
  | depthExceeded (max : Nat)
  | messageTooLarge (length max : Nat)
  | invalidFieldNumber (number : UInt32)
  | knownFieldConflict (message : String) (number : UInt32)
  deriving DecidableEq, Repr

def EncodeError.message : EncodeError → String
  | invalidUtf8 field => s!"invalid UTF-8 in {field}"
  | depthExceeded max => s!"message nesting exceeds maximum depth {max}"
  | messageTooLarge length max => s!"encoded message length {length} exceeds maximum {max}"
  | invalidFieldNumber number => s!"unknown field number {number} is not a valid field number"
  | knownFieldConflict message number =>
      s!"unknown field {number} would decode as a known field of {message}"

/-- How a well-formed message breaks a rule that the wire format does not check. -/
inductive ValidationError
  | negativeBitCount (nbits : Int32)
  | bitCountExceedsData (nbits : Int32) (available : Nat)
  | paddingMismatch (nbits : Int32) (expected actual : Nat)
  | invalidBigNumber (literal : String)
  deriving DecidableEq, Repr

def ValidationError.message : ValidationError → String
  | negativeBitCount nbits => s!"bit count {nbits} is negative"
  | bitCountExceedsData nbits available =>
      s!"bit count {nbits} exceeds the {available} bits of data"
  | paddingMismatch nbits expected actual =>
      s!"{nbits} bits need {expected} bytes, data holds {actual}"
  | invalidBigNumber literal =>
      "big number " ++ Diagnostic.quote literal ++ " is not a decimal literal"

structure UnknownVerdict where
  literal : String
  deriving DecidableEq, Repr

def UnknownVerdict.message (error : UnknownVerdict) : String :=
  "unknown verdict " ++ Diagnostic.quote error.literal

structure InvalidBitLiteral where
  literal : String
  deriving DecidableEq, Repr

def InvalidBitLiteral.message (error : InvalidBitLiteral) : String :=
  "invalid bitstring literal " ++ Diagnostic.quote error.literal

end TestWire
