import TestWire.Message.Schema

/-! # Commands -/

namespace TestWire

namespace Inspect

inductive Action
  | dump (kind : Schema)
  | verdicts
  deriving DecidableEq, Repr

structure Command where
  action : Action
  input : String
  /-- The input is a stream of messages, each after its length. -/
  delimited : Bool := false
  limits : DecodeLimits := {}

end Inspect

end TestWire
