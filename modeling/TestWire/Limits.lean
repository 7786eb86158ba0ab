/-! # Limits -/

namespace TestWire

namespace Limits

/-- The most bytes a varint takes: ten groups of seven bits hold 64 bits. -/
def maxVarintBytes : Nat := 10

/-- Levels of nesting allowed by default; each nested message and each group is one level. -/
def defaultMaxDepth : Nat := 100

def defaultMaxSize : Nat := 64 * 1024 * 1024

def maxEncodedSize : Nat := 0x7fffffff

def maxFieldNumber : Nat := 0x1fffffff

end Limits

structure DecodeLimits where
  maxDepth : Nat := Limits.defaultMaxDepth
  maxSize : Nat := Limits.defaultMaxSize

def version : String := "0.1.0"

end TestWire
