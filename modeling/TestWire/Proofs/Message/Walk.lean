import TestWire.Proofs.Message.TwoPass

/-! # Walking over a message

A walk comes by everything a message holds in the order in which the encoder makes its checks: what
is nested in a message before its own unknown fields, and a message when it is entered.
-/

namespace TestWire

def Scalar.bytes : Scalar → Bytes
  | octets data => data
  | text content => Bytes.ofString content
  | bigNumber literal => Bytes.ofString literal
  | boolean _ | verdict _ | real _ | integer _ => []

/-- What a walk comes by; levels are counted from the outermost message, which is at level zero. -/
inductive Visit
  /-- A nested message of some type is entered, at its own level. -/
  | enter (level : Nat) (s : Schema)
  /-- The bytes that a message holds without its unknown fields. -/
  | content (bytes : Bytes)
  /-- An unknown field of a message of some type, and the level of that message. -/
  | field (level : Nat) (s : Schema) (field : UnknownField)
  deriving DecidableEq, Repr

namespace Visit

/-- What the encoder has against a visit, when messages may nest down to the level `limit`. -/
def violation? (limit : Nat) : Visit → Option EncodeError
  | enter level _ => if limit < level then some (.depthExceeded limit) else none
  | content _ => none
  | field _ s unknown => s.refusal? unknown

theorem violation?_enter_of_lt {limit level : Nat} (h : limit < level) (s : Schema) :
    violation? limit (enter level s) = some (.depthExceeded limit) :=
  if_pos h

theorem violation?_enter_of_le {limit level : Nat} (h : level ≤ limit) (s : Schema) :
    violation? limit (enter level s) = none :=
  if_neg (Nat.not_lt.mpr h)

end Visit

mutual

def Value.walk : Nat → Value → List Visit
  | level, .leaf content unknown =>
      .content (content.elim [] Scalar.bytes) :: unknown.map (.field level .value)
  | level, .aggregate values inner unknown =>
      .enter (level + 1) .composite ::
        (Value.walkAll (level + 1) values ++ inner.map (.field (level + 1) .composite)) ++
          unknown.map (.field level .value)

def Value.walkAll : Nat → List Value → List Visit
  | _, [] => []
  | level, v :: values =>
      .enter (level + 1) .value :: Value.walk (level + 1) v ++ Value.walkAll level values

end

def Composite.walk (level : Nat) (c : Composite) : List Visit :=
  Value.walkAll level c.values ++ c.unknown.map (.field level .composite)

/-- Everything in a message, in the order in which the encoder looks at it. -/
def Message.walk : {s : Schema} → Message s → List Visit
  | .value, v => Value.walk 0 v
  | .composite, c => Composite.walk 0 c
  | .bits, b => .content (BitString.data b) :: (BitString.unknown b).map (.field 0 .bits)

/-- The first thing in a message that the encoder has anything against. -/
def Message.firstViolation? {s : Schema} (limit : Nat) (m : Message s) : Option EncodeError :=
  m.walk.findSome? (Visit.violation? limit)

theorem Value.walk_aggregate (level : Nat) (values : List Value) (inner unknown : UnknownFields) :
    Value.walk level (.aggregate values inner unknown) =
      .enter (level + 1) .composite :: Composite.walk (level + 1) ⟨values, inner⟩ ++
        unknown.map (.field level .value) := by
  rw [Value.walk, Composite.walk]

theorem Value.walkAll_eq_flatMap (level : Nat) (values : List Value) :
    Value.walkAll level values =
      values.flatMap fun v => .enter (level + 1) .value :: v.walk (level + 1) := by
  induction values with
  | nil => simp [Value.walkAll]
  | cons v values ih => rw [Value.walkAll, ih, List.flatMap_cons]

/-! ## The first violation -/

section

variable {limit level left : Nat}

theorem Schema.head?_refusals (limit level : Nat) (s : Schema) (fields : UnknownFields) :
    (s.refusals fields).head? =
      (fields.map (Visit.field level s)).findSome? (Visit.violation? limit) := by
  rw [refusals, List.head?_filterMap, List.findSome?_map]
  rfl

theorem Value.head?_violationsAll_of_forall {values : List Value}
    (h : ∀ v ∈ values, ∀ level left, level + left = limit →
      (v.violations limit left).head? = (v.walk level).findSome? (Visit.violation? limit))
    (hlimit : level + left = limit) :
    (Value.violationsAll limit left values).head? =
      (Value.walkAll level values).findSome? (Visit.violation? limit) := by
  induction values with
  | nil => simp [Value.violationsAll, Value.walkAll]
  | cons v values ih =>
      have htail := ih fun v hv => h v (List.mem_cons_of_mem _ hv)
      cases left with
      | zero =>
          rw [Value.violationsAll, Value.walkAll, List.cons_append, List.findSome?_cons,
            Visit.violation?_enter_of_lt (by omega), List.head?_cons]
      | succ left =>
          have hhead := h v List.mem_cons_self (level + 1) left (by omega)
          rw [Value.violationsAll, List.head?_append, hhead, htail, Value.walkAll,
            List.cons_append, List.findSome?_cons, Visit.violation?_enter_of_le (by omega),
            List.findSome?_append]

theorem Composite.head?_violations_of_forall {c : Composite}
    (h : ∀ v ∈ c.values, ∀ level left, level + left = limit →
      (v.violations limit left).head? = (v.walk level).findSome? (Visit.violation? limit))
    (hlimit : level + left = limit) :
    (c.violations limit left).head? = (c.walk level).findSome? (Visit.violation? limit) := by
  rw [violations, walk, List.head?_append, List.findSome?_append,
    Value.head?_violationsAll_of_forall h hlimit, Schema.head?_refusals]

theorem Value.head?_violations (v : Value) (hlimit : level + left = limit) :
    (v.violations limit left).head? = (v.walk level).findSome? (Visit.violation? limit) := by
  -- A level down, one is added to `level` and taken off `left`, so that they keep their sum.
  induction v using Value.induction generalizing level left with
  | leaf content unknown =>
      rw [Value.violations, Value.walk, List.findSome?_cons, Schema.head?_refusals limit level]
      rfl
  | aggregate values inner unknown ih =>
      rw [Value.walk_aggregate]
      cases left with
      | zero =>
          rw [Value.violations, List.cons_append, List.findSome?_cons,
            Visit.violation?_enter_of_lt (by omega), List.head?_cons]
      | succ left =>
          have hinner : (Composite.violations limit left ⟨values, inner⟩).head? =
              (Composite.walk (level + 1) ⟨values, inner⟩).findSome? (Visit.violation? limit) := by
            apply Composite.head?_violations_of_forall
            · intro v hv level left hlimit
              exact ih v hv hlimit
            · omega
          rw [List.cons_append, List.findSome?_cons, Visit.violation?_enter_of_le (by omega),
            List.findSome?_append, ← hinner, ← Schema.head?_refusals, ← List.head?_append]
          rfl

theorem Message.head?_violations {s : Schema} (limit : Nat) (m : Message s) :
    (m.violations limit).head? = m.firstViolation? limit := by
  cases s with
  | value => exact Value.head?_violations m (Nat.zero_add limit)
  | composite =>
      exact Composite.head?_violations_of_forall
        (fun v _ _ _ hlimit => v.head?_violations hlimit) (Nat.zero_add limit)
  | bits =>
      rw [firstViolation?, walk, List.findSome?_cons]
      exact Schema.head?_refusals limit 0 .bits (BitString.unknown m)

end

/-! ## Encoding -/

namespace Message

variable {s : Schema}

theorem encodedSize_eq_elim (limit : Nat) (m : Message s) :
    encodedSize limit m = (m.firstViolation? limit).elim (.ok m.plain.length) .error := by
  rw [encodedSize_eq, ← head?_violations]
  cases m.violations limit <;> rfl

theorem encode_eq_elim (limit : Nat) (m : Message s) :
    encode limit m = (m.firstViolation? limit).elim
      (if Limits.maxEncodedSize < m.plain.length then
        .error (.messageTooLarge m.plain.length Limits.maxEncodedSize)
      else
        .ok m.plain) .error := by
  rw [encode_eq, encodedSize_eq_elim]
  cases m.firstViolation? limit <;> rfl

end Message

end TestWire
