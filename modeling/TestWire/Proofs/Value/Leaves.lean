import TestWire.Proofs.Message.Tree
import TestWire.Proofs.Validation

/-! # Leaves -/

namespace TestWire

namespace Value

mutual

/-- What the leaves of a value hold, in document order. -/
def leaves : Value → List (Option Scalar)
  | leaf content _ => [content]
  | aggregate values _ _ => leavesAll values

def leavesAll : List Value → List (Option Scalar)
  | [] => []
  | v :: values => leaves v ++ leavesAll values

end

theorem leavesAll_eq_flatMap (values : List Value) : leavesAll values = values.flatMap leaves := by
  induction values with
  | nil => rfl
  | cons v values ih => rw [leavesAll, ih, List.flatMap_cons]

theorem forall_leaves_aggregate_iff {holds : Option Scalar → Prop} {values : List Value}
    {inner unknown : UnknownFields} :
    (∀ content ∈ (aggregate values inner unknown).leaves, holds content) ↔
      ∀ v ∈ values, ∀ content ∈ v.leaves, holds content := by
  rw [leaves, leavesAll_eq_flatMap, List.forall_mem_flatMap]

end Value

namespace Validation

theorem filterMap_leavesAll_of_forall {values : List Value}
    (h : ∀ v ∈ values, literals v = v.leaves.filterMap literal?) :
    literalsAll values = (Value.leavesAll values).filterMap literal? := by
  induction values with
  | nil => rfl
  | cons v values ih =>
      rw [List.forall_mem_cons] at h
      rw [literalsAll, Value.leavesAll, List.filterMap_append, h.1, ih h.2]

/-- The big numbers of a value are those of its leaves. -/
theorem literals_eq_filterMap (v : Value) : literals v = v.leaves.filterMap literal? := by
  induction v using Value.induction with
  | leaf content unknown =>
      rw [literals, Value.leaves, List.filterMap_cons]
      cases literal? content <;> rfl
  | aggregate values inner unknown ih => exact filterMap_leavesAll_of_forall ih

theorem value_eq_ok_iff {v : Value} :
    value v = .ok () ↔ ∀ literal, some (.bigNumber literal) ∈ v.leaves → Decimal literal := by
  have hliteral : ∀ literal, literal ∈ literals v ↔ some (.bigNumber literal) ∈ v.leaves := by
    intro literal
    rw [literals_eq_filterMap, List.mem_filterMap]
    constructor
    · rintro ⟨content, hmem, hcontent⟩
      unfold literal? at hcontent
      split at hcontent
      · cases hcontent
        exact hmem
      · cases hcontent
    · intro hmem
      exact ⟨_, hmem, rfl⟩
  rw [value, pending_eq_report, report_eq_ok_iff, invalid?_eq_none_iff, literalsAll, literalsAll,
    List.append_nil]
  exact forall_congr' fun literal => imp_congr_left (hliteral literal)

end Validation

end TestWire
