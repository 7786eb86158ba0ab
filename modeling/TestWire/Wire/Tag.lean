import TestWire.Wire.Reader

/-! # Field tags -/

namespace TestWire

inductive WireType
  | varint
  | fixed64
  | lengthDelimited
  | startGroup
  | endGroup
  | fixed32
  deriving DecidableEq, Repr

namespace WireType

def code : WireType → Nat
  | varint => 0
  | fixed64 => 1
  | lengthDelimited => 2
  | startGroup => 3
  | endGroup => 4
  | fixed32 => 5

def ofCode? : Nat → Option WireType
  | 0 => some varint
  | 1 => some fixed64
  | 2 => some lengthDelimited
  | 3 => some startGroup
  | 4 => some endGroup
  | 5 => some fixed32
  | _ => none

theorem ofCode?_eq_some_iff {n : Nat} {wireType : WireType} :
    ofCode? n = some wireType ↔ n = wireType.code := by
  constructor
  · intro h
    unfold ofCode? at h
    split at h <;> cases h <;> rfl
  · rintro rfl
    cases wireType <;> rfl

@[simp] theorem ofCode?_code (wireType : WireType) : ofCode? wireType.code = some wireType :=
  ofCode?_eq_some_iff.mpr rfl

theorem code_lt (wireType : WireType) : wireType.code < 8 := by
  cases wireType <;> decide

def name : WireType → String
  | varint => "Varint"
  | fixed64 => "Fixed64"
  | lengthDelimited => "LengthDelimited"
  | startGroup => "StartGroup"
  | endGroup => "EndGroup"
  | fixed32 => "Fixed32"

end WireType

structure Tag where
  number : UInt32
  wireType : WireType
  deriving DecidableEq, Repr

namespace Tag

def raw (tag : Tag) : UInt64 :=
  UInt64.ofNat (8 * tag.number.toNat + tag.wireType.code)

def encode (tag : Tag) : Bytes :=
  Varint.encode tag.raw

def size (tag : Tag) : Nat :=
  Varint.size tag.raw

/-- The end of a group may have the number zero; whether it is in place the caller has to see. -/
def ofRaw (raw : UInt64) : Except DecodeError (Option Tag) :=
  if raw = 0 then
    .ok none
  else if 0xffffffff < raw.toNat then
    .error (.invalidTag raw)
  else
    match WireType.ofCode? (raw.toNat % 8) with
    | none => .error (.invalidWireType (raw.toNat % 8))
    | some wireType =>
        if raw.toNat < 8 ∧ wireType ≠ .endGroup then
          .error (.invalidTag raw)
        else
          .ok (some ⟨UInt32.ofNat (raw.toNat / 8), wireType⟩)

def read : Reader (Option Tag) := do
  Reader.ofExcept (ofRaw (← Reader.varint "tag"))

end Tag

end TestWire
