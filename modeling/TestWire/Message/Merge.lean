import TestWire.Message.Schema

/-! # Merging and decoding

Decoding is merging into an empty message, field by field.  When a field fails, the message keeps
what was merged before it.
-/

namespace TestWire

/-- A message as far as it was merged, and how that ended. -/
structure Merged (μ α : Type) where
  message : μ
  outcome : Except DecodeError α

namespace Merged

/-- The fields of one message are taken by a step that gives the unread bytes behind its field. -/
abbrev Step (μ : Type) := Tag → μ → Bytes → Merged μ Bytes

abbrev Region (μ : Type) := μ → Bytes → Merged μ Unit

/-- Reads one field that goes into the message as a whole, or not at all. -/
def field {μ α : Type} (read : Reader α) (set : μ → α → μ) (m : μ) (input : Bytes) :
    Merged μ Bytes :=
  match read input with
  | .ok value rest => ⟨set m value, .ok rest⟩
  | .error error _ => ⟨m, .error error⟩

/-- Takes at most `bound` fields; each takes a byte at least, so the input's length bounds them. -/
def fields {μ : Type} (step : Step μ) : Nat → Region μ
  | 0, m, _ => ⟨m, .ok ()⟩
  | _ + 1, m, [] => ⟨m, .ok ()⟩
  | bound + 1, m, input@(_ :: _) =>
      match Tag.read input with
      | .error error _ => ⟨m, .error error⟩
      | .ok none _ => ⟨m, .ok ()⟩
      | .ok (some tag) rest =>
          if tag.wireType = .endGroup then
            ⟨m, .ok ()⟩
          else
            match step tag m rest with
            | ⟨m, .error error⟩ => ⟨m, .error error⟩
            | ⟨m, .ok rest⟩ => fields step bound m rest

def region {μ : Type} (step : Step μ) : Region μ := fun m input =>
  fields step (input.length + 1) m input

/-- Without `deeper` the levels are used up, which is found before the length is read. -/
def nested {μ : Type} (max : Nat) (name : String) (deeper : Option (Region μ)) (m : μ)
    (input : Bytes) : Merged μ Bytes :=
  match deeper with
  | none => ⟨m, .error (.depthExceeded max)⟩
  | some merge =>
      match Reader.prefixed name input with
      | .error error _ => ⟨m, .error error⟩
      | .ok body rest =>
          let inner := merge m body
          ⟨inner.message, inner.outcome.map fun _ => rest⟩

end Merged

def Scalar.reader? (c : Case) : Option (Reader Scalar) :=
  match c with
  | .octets => some (octets <$> Reader.prefixed c.fieldName)
  | .boolean => some ((fun word => boolean (word != 0)) <$> Reader.varint c.fieldName)
  | .verdict => some ((fun n => verdict (.ofOrdinal n)) <$> Reader.int32 c.fieldName)
  | .text => some (text <$> Reader.text c.fieldName)
  | .real => some ((fun word => real ⟨word⟩) <$> Reader.fixed64 c.fieldName)
  | .integer => some (integer <$> Reader.int32 c.fieldName)
  | .bigNumber => some (bigNumber <$> Reader.text c.fieldName)
  | .aggregate => none

namespace Value

def addUnknown (v : Value) (field : UnknownField) : Value :=
  v.withUnknown (v.unknown ++ [field])

/-- An active aggregate keeps what it took in when that fails; a new one is set once complete. -/
def mergeAggregate (max : Nat) (deeper : Option (Merged.Region Composite)) (v : Value)
    (input : Bytes) : Merged Value Bytes :=
  let into (c : Composite) := Merged.nested max Schema.composite.name deeper c input
  match v.composite? with
  | some active =>
      let merged := into active
      ⟨v.setComposite merged.message, merged.outcome⟩
  | none =>
      match into {} with
      | ⟨c, .ok rest⟩ => ⟨v.setComposite c, .ok rest⟩
      | ⟨_, .error error⟩ => ⟨v, .error error⟩

def mergeField (max left : Nat) (deeper : Option (Merged.Region Composite)) :
    Merged.Step Value := fun tag v input =>
  match Case.ofTag? tag with
  | none => Merged.field (UnknownField.read max left tag) addUnknown v input
  | some c =>
      match Scalar.reader? c with
      | some read => Merged.field read setScalar v input
      | none => mergeAggregate max deeper v input

end Value

namespace Composite

def addUnknown (c : Composite) (field : UnknownField) : Composite :=
  { c with unknown := c.unknown ++ [field] }

def mergeField (max left : Nat) (deeper : Option (Merged.Region Value)) :
    Merged.Step Composite := fun tag c input =>
  if tag = elementTag then
    match Merged.nested max Schema.value.name deeper .unset input with
    | ⟨v, .ok rest⟩ => ⟨c.push v, .ok rest⟩
    | ⟨_, .error error⟩ => ⟨c, .error error⟩
  else
    Merged.field (UnknownField.read max left tag) addUnknown c input

end Composite

namespace BitString

def addUnknown (b : BitString) (field : UnknownField) : BitString :=
  { b with unknown := b.unknown ++ [field] }

def mergeField (max left : Nat) : Merged.Step BitString := fun tag b input =>
  if tag = dataTag then
    Merged.field (Reader.prefixed "data") (fun b data => { b with data := data }) b input
  else if tag = nbitsTag then
    Merged.field (Reader.int32 "nbits") (fun b nbits => { b with nbits := nbits }) b input
  else
    Merged.field (UnknownField.read max left tag) addUnknown b input

end BitString

mutual

/-- Merges the fields of a value, with `left` of the `max` levels of nesting still to use. -/
def Value.merge (max : Nat) : Nat → Merged.Region Value
  | 0 => Merged.region (Value.mergeField max 0 none)
  | left + 1 => Merged.region (Value.mergeField max (left + 1) (some (Composite.merge max left)))

def Composite.merge (max : Nat) : Nat → Merged.Region Composite
  | 0 => Merged.region (Composite.mergeField max 0 none)
  | left + 1 => Merged.region (Composite.mergeField max (left + 1) (some (Value.merge max left)))

end

def BitString.merge (max left : Nat) : Merged.Region BitString :=
  Merged.region (BitString.mergeField max left)

namespace Message

def mergeInput (max : Nat) : {s : Schema} → Merged.Region (Message s)
  | .value => Value.merge max max
  | .composite => Composite.merge max max
  | .bits => BitString.merge max max

/-- Merges input into a message, which stays as it is when there is too much of it. -/
def merge {s : Schema} (limits : DecodeLimits) : Merged.Region (Message s) := fun m input =>
  if limits.maxSize < input.length then
    ⟨m, .error (.lengthExceedsLimit "message" input.length limits.maxSize)⟩
  else
    mergeInput limits.maxDepth m input

def decode (s : Schema) (limits : DecodeLimits) (input : Bytes) : Except DecodeError (Message s) :=
  let merged := merge limits (empty s) input
  merged.outcome.map fun _ => merged.message

end Message

end TestWire
