import TestWire.Double
import TestWire.Verdict
import TestWire.Wire.UnknownField

/-! # Values

A test value holds a scalar, an aggregate or nothing at all, and beside that the fields that were
unknown when it was read, as does the composite inside an aggregate.
-/

namespace TestWire

/-- What a value holds that is not made of other values. -/
inductive Scalar
  | octets (data : Bytes)
  | boolean (value : Bool)
  | verdict (verdict : Verdict)
  | text (text : String)
  | real (value : Double)
  | integer (value : Int32)
  /-- A number of any size as decimal text, which reading and writing leave as it is. -/
  | bigNumber (literal : String)
  deriving Repr, Inhabited

inductive Value
  | leaf (content : Option Scalar) (unknown : UnknownFields)
  /-- The values of a composite and its unknown fields, then the unknown fields of the value. -/
  | aggregate (values : List Value) (inner unknown : UnknownFields)
  deriving Repr

structure Composite where
  values : List Value := []
  unknown : UnknownFields := []
  deriving Repr, Inhabited

inductive Kind
  | scalar (scalar : Scalar)
  | aggregate (composite : Composite)
  deriving Repr

inductive Case
  | octets
  | boolean
  | verdict
  | text
  | real
  | integer
  | bigNumber
  | aggregate
  deriving DecidableEq, Repr

namespace Case

def number : Case → UInt32
  | octets => 1
  | boolean => 2
  | verdict => 3
  | text => 4
  | real => 5
  | integer => 6
  | bigNumber => 7
  | aggregate => 8

def wireType : Case → WireType
  | octets | text | bigNumber | aggregate => .lengthDelimited
  | boolean | verdict | integer => .varint
  | real => .fixed64

def fieldName : Case → String
  | octets => "byte_value"
  | boolean => "bool_value"
  | verdict => "verdict_value"
  | text => "string_value"
  | real => "float_value"
  | integer => "int_value"
  | bigNumber => "big_value"
  | aggregate => "composite_value"

def tag (c : Case) : Tag :=
  ⟨c.number, c.wireType⟩

def all : List Case :=
  [octets, boolean, verdict, text, real, integer, bigNumber, aggregate]

def ofNumber? (number : UInt32) : Option Case :=
  all.find? fun c => c.number == number

def ofTag? (tag : Tag) : Option Case :=
  all.find? fun c => c.tag == tag

theorem ofTag?_eq_some_iff {t : Tag} {c : Case} : ofTag? t = some c ↔ t = c.tag := by
  constructor
  · intro h
    have hfound : c.tag = t := by simpa using List.find?_some h
    exact hfound.symm
  · rintro rfl
    cases c <;> rfl

@[simp] theorem ofTag?_tag (c : Case) : ofTag? c.tag = some c :=
  ofTag?_eq_some_iff.mpr rfl

theorem tag_inj {c c' : Case} : c.tag = c'.tag ↔ c = c' := by
  constructor
  · intro h
    have hsome : some c = some c' := by rw [← ofTag?_tag c, h, ofTag?_tag]
    exact Option.some.inj hsome
  · intro h
    rw [h]

def nameOf : Option Case → String
  | some c => c.fieldName
  | none => "kind_not_set"

end Case

namespace Scalar

def case : Scalar → Case
  | octets _ => .octets
  | boolean _ => .boolean
  | verdict _ => .verdict
  | text _ => .text
  | real _ => .real
  | integer _ => .integer
  | bigNumber _ => .bigNumber

end Scalar

namespace Kind

def case : Kind → Case
  | scalar s => s.case
  | aggregate _ => .aggregate

end Kind

namespace Composite

def ofValues (values : List Value) : Composite where
  values := values

def push (c : Composite) (v : Value) : Composite :=
  { c with values := c.values ++ [v] }

end Composite

namespace Value

def unset : Value :=
  leaf none []

instance : Inhabited Value :=
  ⟨unset⟩

def ofScalar (scalar : Scalar) : Value :=
  leaf (some scalar) []

def ofComposite (composite : Composite) : Value :=
  aggregate composite.values composite.unknown []

instance : Coe Bool Value := ⟨fun value => ofScalar (.boolean value)⟩
instance : Coe Int32 Value := ⟨fun value => ofScalar (.integer value)⟩
instance : Coe Double Value := ⟨fun value => ofScalar (.real value)⟩
instance : Coe String Value := ⟨fun text => ofScalar (.text text)⟩
instance : Coe Verdict Value := ⟨fun verdict => ofScalar (.verdict verdict)⟩
instance : Coe Composite Value := ⟨ofComposite⟩

def textOfUtf8 (octets : Bytes) : Except EncodeError Value :=
  match octets.toString? with
  | some text => .ok (ofScalar (.text text))
  | none => .error (.invalidUtf8 Case.text.fieldName)

def bigNumberOfUtf8 (octets : Bytes) : Except EncodeError Value :=
  match octets.toString? with
  | some literal => .ok (ofScalar (.bigNumber literal))
  | none => .error (.invalidUtf8 Case.bigNumber.fieldName)

def kind? : Value → Option Kind
  | leaf content _ => content.map Kind.scalar
  | aggregate values inner _ => some (.aggregate ⟨values, inner⟩)

/-- The unknown fields of the value itself. -/
def unknown : Value → UnknownFields
  | leaf _ unknown => unknown
  | aggregate _ _ unknown => unknown

def make : Option Kind → UnknownFields → Value
  | none, unknown => leaf none unknown
  | some (.scalar scalar), unknown => leaf (some scalar) unknown
  | some (.aggregate composite), unknown => aggregate composite.values composite.unknown unknown

/-- Replaces what the value holds and keeps its unknown fields. -/
def withKind (v : Value) (kind : Option Kind) : Value :=
  make kind v.unknown

def withUnknown : Value → UnknownFields → Value
  | leaf content _, unknown => leaf content unknown
  | aggregate values inner _, unknown => aggregate values inner unknown

def case? (v : Value) : Option Case :=
  v.kind?.map Kind.case

def isSet (v : Value) : Bool :=
  v.kind?.isSome

def setScalar (v : Value) (scalar : Scalar) : Value :=
  leaf (some scalar) v.unknown

def setComposite (v : Value) (c : Composite) : Value :=
  aggregate c.values c.unknown v.unknown

def scalar? : Value → Option Scalar
  | leaf content _ => content
  | aggregate .. => none

def composite? : Value → Option Composite
  | leaf .. => none
  | aggregate values inner _ => some ⟨values, inner⟩

/-! ## The two parts of a value -/

@[simp] theorem make_kind?_unknown (v : Value) : make v.kind? v.unknown = v := by
  cases v with
  | leaf content unknown => cases content <;> rfl
  | aggregate values inner unknown => rfl

@[simp] theorem kind?_make (kind : Option Kind) (fields : UnknownFields) :
    (make kind fields).kind? = kind := by
  rcases kind with _ | _ | _ <;> rfl

@[simp] theorem unknown_make (kind : Option Kind) (fields : UnknownFields) :
    (make kind fields).unknown = fields := by
  rcases kind with _ | _ | _ <;> rfl

@[simp] theorem kind?_withKind (v : Value) (kind : Option Kind) : (v.withKind kind).kind? = kind :=
  kind?_make kind v.unknown

@[simp] theorem unknown_withKind (v : Value) (kind : Option Kind) :
    (v.withKind kind).unknown = v.unknown :=
  unknown_make kind v.unknown

@[simp] theorem kind?_withUnknown (v : Value) (fields : UnknownFields) :
    (v.withUnknown fields).kind? = v.kind? := by
  cases v <;> rfl

@[simp] theorem composite?_withUnknown (v : Value) (fields : UnknownFields) :
    (v.withUnknown fields).composite? = v.composite? := by
  cases v <;> rfl

@[simp] theorem unknown_withUnknown (v : Value) (fields : UnknownFields) :
    (v.withUnknown fields).unknown = fields := by
  cases v <;> rfl

end Value

end TestWire
