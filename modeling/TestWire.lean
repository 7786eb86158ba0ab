import TestWire.Main
import TestWire.Proofs.Message.Tree
import TestWire.Proofs.Message.TwoPass
import TestWire.Proofs.Message.Fields
import TestWire.Proofs.Message.Grammar
import TestWire.Proofs.Message.Intact
import TestWire.Proofs.Message.RoundTrip
import TestWire.Proofs.Message.Relay
import TestWire.Proofs.Message.DepthLimits
import TestWire.Proofs.Message.Canonical
import TestWire.Proofs.Message.Concatenation
import TestWire.Proofs.Message.Oneof
import TestWire.Proofs.Message.Verbatim
import TestWire.Proofs.Wire.Truncation
import TestWire.Proofs.Message.Truncation
import TestWire.Proofs.Message.Chunks
import TestWire.Proofs.Message.FrameStream
import TestWire.Proofs.Message.Interleaving
import TestWire.Proofs.Message.PartialMerge
import TestWire.Proofs.Wire.LowerLimit
import TestWire.Proofs.Message.LowerLimit
import TestWire.Proofs.Message.Held
import TestWire.Proofs.Message.FirstViolation
import TestWire.Proofs.Message.ForeignField
import TestWire.Proofs.Wire.Extent
import TestWire.Proofs.Wire.Unread
import TestWire.Proofs.Wire.Base128
import TestWire.Proofs.Wire.Cursor
import TestWire.Proofs.Message.Rounds
import TestWire.Proofs.Message.Additions
import TestWire.Proofs.Message.Reachable
import TestWire.Proofs.Message.FrameByFrame
import TestWire.Proofs.Verdict
import TestWire.Proofs.Validation
import TestWire.Proofs.BitString
import TestWire.Proofs.BitLiteral
import TestWire.Proofs.Text.Words
import TestWire.Proofs.Value.Leaves
import TestWire.Proofs.Value.Notation
import TestWire.Proofs.Inspect.Tally
import TestWire.Proofs.Inspect.Dump
