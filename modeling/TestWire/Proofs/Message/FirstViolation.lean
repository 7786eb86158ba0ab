import TestWire.Proofs.Message.Walk

/-! # The first violation

A message that is nested too deep is refused when the walk enters it, so nothing inside it is looked
at: two messages that are pruned to the same one have the same encoding, or fail in the same way.
-/

namespace TestWire

mutual

/-- The value with nothing in the messages that are more than `left` levels below it. -/
def Value.prune : Nat → Value → Value
  | _, .leaf content unknown => .leaf content unknown
  | 0, .aggregate _ _ unknown => .aggregate [] [] unknown
  | left + 1, .aggregate values inner unknown =>
      .aggregate (Value.pruneAll left values) inner unknown

def Value.pruneAll : Nat → List Value → List Value
  | _, [] => []
  | 0, _ :: values => .unset :: Value.pruneAll 0 values
  | left + 1, v :: values => Value.prune left v :: Value.pruneAll (left + 1) values

end

def Composite.prune (left : Nat) (c : Composite) : Composite :=
  { c with values := Value.pruneAll left c.values }

def Message.prune (limit : Nat) : {s : Schema} → Message s → Message s
  | .value, v => Value.prune limit v
  | .composite, c => Composite.prune limit c
  | .bits, b => b

/-! ## Pruning changes no violation -/

section

variable {limit left : Nat}

theorem Value.violationsAll_pruneAll_of_forall {values : List Value}
    (h : ∀ v ∈ values, ∀ left, (v.prune left).violations limit left = v.violations limit left) :
    Value.violationsAll limit left (Value.pruneAll left values) =
      Value.violationsAll limit left values := by
  induction values with
  | nil => cases left <;> rfl
  | cons v values ih =>
      have htail := ih fun v hv => h v (List.mem_cons_of_mem _ hv)
      cases left with
      | zero => simp only [Value.pruneAll, Value.violationsAll, htail]
      | succ left =>
          simp only [Value.pruneAll, Value.violationsAll, htail, h v List.mem_cons_self left]

theorem Value.violations_prune (v : Value) :
    (v.prune left).violations limit left = v.violations limit left := by
  induction v using Value.induction generalizing left with
  | leaf content unknown => cases left <;> rfl
  | aggregate values inner unknown ih =>
      cases left with
      | zero => rfl
      | succ left =>
          have hvalues : Value.violationsAll limit left (Value.pruneAll left values) =
              Value.violationsAll limit left values :=
            Value.violationsAll_pruneAll_of_forall fun v hv _ => ih v hv
          rw [prune, violations, violations, hvalues]

theorem Message.violations_prune {s : Schema} (m : Message s) :
    (m.prune limit).violations limit = m.violations limit := by
  cases s with
  | value => exact Value.violations_prune m
  | composite =>
      have hvalues : Value.violationsAll limit limit (Value.pruneAll limit (Composite.values m)) =
          Value.violationsAll limit limit (Composite.values m) :=
        Value.violationsAll_pruneAll_of_forall fun v _ _ => v.violations_prune
      rw [violations, violations, Composite.violations, Composite.violations, ← hvalues]
      rfl
  | bits => rfl

/-! ## Without a violation there is nothing to prune -/

theorem Value.pruneAll_eq_self_of_forall {values : List Value}
    (h : ∀ v ∈ values, ∀ left, v.violations limit left = [] → v.prune left = v)
    (hnone : Value.violationsAll limit left values = []) : Value.pruneAll left values = values := by
  induction values with
  | nil => cases left <;> rfl
  | cons v values ih =>
      have htail := ih fun v hv => h v (List.mem_cons_of_mem _ hv)
      cases left with
      | zero => cases hnone
      | succ left =>
          obtain ⟨hhead, hrest⟩ := List.append_eq_nil_iff.mp hnone
          rw [Value.pruneAll, h v List.mem_cons_self left hhead, htail hrest]

theorem Value.prune_eq_self {v : Value} (hnone : v.violations limit left = []) :
    v.prune left = v := by
  induction v using Value.induction generalizing left with
  | leaf content unknown => cases left <;> rfl
  | aggregate values inner unknown ih =>
      cases left with
      | zero => cases hnone
      | succ left =>
          obtain ⟨hheld, _⟩ := List.append_eq_nil_iff.mp hnone
          obtain ⟨hvalues, _⟩ := List.append_eq_nil_iff.mp hheld
          rw [prune, Value.pruneAll_eq_self_of_forall (fun v hv _ => ih v hv) hvalues]

theorem Message.prune_eq_self {s : Schema} {m : Message s} (hnone : m.violations limit = []) :
    m.prune limit = m := by
  cases s with
  | value => exact Value.prune_eq_self hnone
  | composite =>
      obtain ⟨hvalues, _⟩ := List.append_eq_nil_iff.mp hnone
      have hself : Value.pruneAll limit (Composite.values m) = Composite.values m :=
        Value.pruneAll_eq_self_of_forall (fun _ _ _ => Value.prune_eq_self) hvalues
      rw [prune, Composite.prune, hself]
  | bits => rfl

end

/-! ## Encoding -/

namespace Message

variable {s : Schema}

theorem encodedSize_prune (limit : Nat) (m : Message s) :
    encodedSize limit (m.prune limit) = encodedSize limit m := by
  rw [encodedSize_eq, encodedSize_eq, violations_prune]
  cases hfirst : m.violations limit with
  | nil => rw [prune_eq_self hfirst]
  | cons error errors => rfl

theorem encode_prune (limit : Nat) (m : Message s) :
    encode limit (m.prune limit) = encode limit m := by
  cases hfirst : m.violations limit with
  | nil => rw [prune_eq_self hfirst]
  | cons error errors =>
      rw [encode_eq, encode_eq, encodedSize_prune, encodedSize_eq, hfirst]
      rfl

/--
A message whose encoding is not too long is encoded, and has a size, unless the walk over it comes
by a violation; then it fails with the first one.  Messages that differ only in what is inside of
messages at levels greater than the limit are encoded alike.
-/
theorem encode_eq_first_violation (limit : Nat) (m : Message s) :
    encodedSize limit m = (m.firstViolation? limit).elim (.ok m.plain.length) .error ∧
    (m.plain.length ≤ Limits.maxEncodedSize →
      encode limit m = (m.firstViolation? limit).elim (.ok m.plain) .error) ∧
    ∀ m' : Message s, m'.prune limit = m.prune limit →
      encodedSize limit m' = encodedSize limit m ∧ encode limit m' = encode limit m := by
  refine ⟨encodedSize_eq_elim limit m, ?_, ?_⟩
  · intro hfits
    rw [encode_eq_elim, if_neg (Nat.not_lt.mpr hfits)]
  · intro m' hprune
    constructor
    · rw [← encodedSize_prune limit m', hprune, encodedSize_prune]
    · rw [← encode_prune limit m', hprune, encode_prune]

/-- An aggregate of one value with a field that is no unknown one, in a value with a field zero. -/
def twoConflicts (v : Value) : Message .value :=
  Value.aggregate [v] [.lengthDelimited 1 []] [.varint 0 7]

/--
Within two levels the field of the aggregate comes before that of the value.  Within one level the
element comes before both, and what it holds makes no difference.
-/
theorem encode_eq_first_violation_two_conflicts :
    encode 2 (twoConflicts .unset) = .error (.knownFieldConflict "ntt.Composite" 1) ∧
    encode 1 (twoConflicts .unset) = .error (.depthExceeded 1) ∧
    encode 1 (twoConflicts (.leaf none [.varint 0 7])) = .error (.depthExceeded 1) := by
  have hfits : (twoConflicts .unset).plain.length ≤ Limits.maxEncodedSize := by decide +kernel
  have hinner : (twoConflicts .unset).firstViolation? 2 =
      some (.knownFieldConflict "ntt.Composite" 1) := by decide +kernel
  have hdeep : (twoConflicts .unset).firstViolation? 1 = some (.depthExceeded 1) := by
    decide +kernel
  have htight : encode 1 (twoConflicts .unset) = .error (.depthExceeded 1) := by
    rw [(encode_eq_first_violation 1 (twoConflicts .unset)).2.1 hfits, hdeep]
    rfl
  have hreplaced := (encode_eq_first_violation 1 (twoConflicts .unset)).2.2
    (twoConflicts (.leaf none [.varint 0 7])) rfl
  refine ⟨?_, htight, hreplaced.2.trans htight⟩
  rw [(encode_eq_first_violation 2 (twoConflicts .unset)).2.1 hfits, hinner]
  rfl

end Message

end TestWire
