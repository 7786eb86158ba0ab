import TestWire.Validation

/-! # Validation in document order

What stands on the stack of pending values is always the rest of the document in its order, so the
loop finds what a recursion over the tree finds.
-/

namespace TestWire

namespace Validation

/-- The literals `-?[0-9]+`, of decimal digits only. -/
def Decimal (literal : String) : Prop :=
  ∃ digits : List Char, digits ≠ [] ∧ (∀ c ∈ digits, '0' ≤ c ∧ c ≤ '9') ∧
    (literal.toList = digits ∨ literal.toList = '-' :: digits)

mutual

/-- The first violation in a value, found by recursion. -/
def tree : Value → Except ValidationError Unit
  | .leaf content _ => scalar content
  | .aggregate elements _ _ => forest elements

def forest : List Value → Except ValidationError Unit
  | [] => .ok ()
  | v :: values => do
      tree v
      forest values

end

def literal? : Option Scalar → Option String
  | some (.bigNumber literal) => some literal
  | _ => none

mutual

/-- The big numbers of a value in document order. -/
def literals : Value → List String
  | .leaf content _ => (literal? content).toList
  | .aggregate elements _ _ => literalsAll elements

def literalsAll : List Value → List String
  | [] => []
  | v :: values => literals v ++ literalsAll values

end

/-- One round: the topmost value is taken off the stack, and its elements are put on it one by one,
the last one first. -/
def round : List Value → Except ValidationError (List Value)
  | [] => .ok []
  | .leaf content _ :: stack => do
      scalar content
      return stack
  | .aggregate elements _ _ :: stack =>
      .ok (elements.reverse.foldl (fun stack v => v :: stack) stack)

def rounds : Nat → List Value → Except ValidationError (List Value)
  | 0, stack => .ok stack
  | n + 1, stack => round stack >>= rounds n

/-! ## Literals -/

theorem unsigned_of_isDigit {digits : List Char} (h : ∀ c ∈ digits, '0' ≤ c ∧ c ≤ '9') :
    unsigned digits = digits := by
  unfold unsigned
  split
  · next rest =>
      have hminus : '0' ≤ '-' := (h '-' List.mem_cons_self).1
      exact absurd hminus (by decide)
  · rfl

theorem unsigned_eq_iff {text digits : List Char} (h : ∀ c ∈ digits, '0' ≤ c ∧ c ≤ '9') :
    unsigned text = digits ↔ text = digits ∨ text = '-' :: digits := by
  constructor
  · intro hunsigned
    unfold unsigned at hunsigned
    split at hunsigned
    · exact .inr (by rw [hunsigned])
    · exact .inl hunsigned
  · intro htext
    rcases htext with rfl | rfl
    · exact unsigned_of_isDigit h
    · rfl

theorem decimal_iff {literal : String} :
    Decimal literal ↔
      unsigned literal.toList ≠ [] ∧ ∀ c ∈ unsigned literal.toList, '0' ≤ c ∧ c ≤ '9' := by
  constructor
  · intro h
    obtain ⟨digits, hne, hdigits, htext⟩ := h
    rw [(unsigned_eq_iff hdigits).mpr htext]
    exact ⟨hne, hdigits⟩
  · intro h
    exact ⟨_, h.1, h.2, (unsigned_eq_iff h.2).mp rfl⟩

theorem decimal_iff_all {literal : String} :
    Decimal literal ↔ (unsigned literal.toList).isEmpty = false ∧
      (unsigned literal.toList).all isDigit = true := by
  simp [decimal_iff, isDigit]

instance (literal : String) : Decidable (Decimal literal) :=
  decidable_of_iff _ decimal_iff_all.symm

theorem bigNumber_eq (literal : String) :
    bigNumber literal = if Decimal literal then .ok () else .error (.invalidBigNumber literal) := by
  unfold bigNumber
  by_cases h : Decimal literal
  · obtain ⟨hne, hdigits⟩ := decimal_iff_all.mp h
    simp [h, hne, hdigits]
  · have hcheck : ((unsigned literal.toList).isEmpty ||
        !(unsigned literal.toList).all isDigit) = true := by
      rw [decimal_iff_all] at h
      cases hempty : (unsigned literal.toList).isEmpty with
      | true => rfl
      | false => simpa [hempty] using h
    rw [if_pos hcheck, if_neg h]

def report : Option String → Except ValidationError Unit
  | none => .ok ()
  | some literal => .error (.invalidBigNumber literal)

theorem report_or (first? second? : Option String) :
    report (first?.or second?) = report first? >>= fun _ => report second? := by
  cases first? <;> rfl

theorem report_eq_ok_iff {literal? : Option String} :
    report literal? = .ok () ↔ literal? = none := by
  cases literal? <;> simp [report]

theorem report_eq_error_iff {literal? : Option String} {violation : ValidationError} :
    report literal? = .error violation ↔
      ∃ literal, literal? = some literal ∧ violation = .invalidBigNumber literal := by
  cases literal? <;> simp [report, eq_comm]

/-- The first of some literals that is no big number. -/
def invalid? (literals : List String) : Option String :=
  literals.find? fun literal => ¬ Decimal literal

theorem invalid?_append (literals others : List String) :
    invalid? (literals ++ others) = (invalid? literals).or (invalid? others) :=
  List.find?_append

theorem invalid?_eq_none_iff {literals : List String} :
    invalid? literals = none ↔ ∀ literal ∈ literals, Decimal literal := by
  simp [invalid?]

theorem invalid?_eq_some_iff {literals : List String} {literal : String} :
    invalid? literals = some literal ↔
      ¬ Decimal literal ∧ ∃ before after, literals = before ++ literal :: after ∧
        ∀ earlier ∈ before, Decimal earlier := by
  simp [invalid?, List.find?_eq_some_iff_append]

theorem scalar_eq (content : Option Scalar) :
    scalar content = report (invalid? (literal? content).toList) := by
  unfold scalar
  split
  · next literal =>
      rw [bigNumber_eq]
      by_cases h : Decimal literal <;> simp [literal?, invalid?, report, h]
  · next hother =>
      have hnone : literal? content = none := by
        unfold literal?
        split
        · next literal => exact (hother literal rfl).elim
        · rfl
      rw [hnone]
      rfl

/-! ## The rest of the document -/

theorem literalsAll_append (values others : List Value) :
    literalsAll (values ++ others) = literalsAll values ++ literalsAll others := by
  induction values with
  | nil => rfl
  | cons v values ih => rw [List.cons_append, literalsAll, literalsAll, ih, List.append_assoc]

theorem forest_append (values others : List Value) :
    forest (values ++ others) = forest values >>= fun _ => forest others := by
  induction values with
  | nil => rfl
  | cons v values ih => rw [List.cons_append, forest, forest, ih, bind_assoc]

theorem pending_leaf (content : Option Scalar) (unknown : UnknownFields) (values : List Value) :
    pending (.leaf content unknown :: values) = scalar content >>= fun _ => pending values := by
  rw [pending]
  cases scalar content <;> rfl

theorem treeSize_pos (v : Value) : 0 < treeSize v := by
  cases v with
  | leaf content unknown => exact Nat.one_pos
  | aggregate elements inner unknown =>
      rw [treeSize]
      omega

/--
What holds of no values, and of values when it holds of what is left of them after the first one is
taken off, holds of all values: the order in which the loop comes by them.
-/
theorem pending_induction {motive : List Value → Prop} (nil : motive [])
    (leaf : ∀ content unknown values, motive values → motive (.leaf content unknown :: values))
    (aggregate : ∀ elements inner unknown values, motive (elements ++ values) →
      motive (.aggregate elements inner unknown :: values)) (values : List Value) :
    motive values := by
  generalize hsize : forestSize values = size
  induction size using Nat.strongRecOn generalizing values with
  | ind size ih =>
      subst hsize
      cases values with
      | nil => exact nil
      | cons v values =>
          have hpos := treeSize_pos v
          cases v with
          | leaf content unknown =>
              exact leaf content unknown values
                (ih _ (by rw [forestSize]; omega) values rfl)
          | aggregate elements inner unknown =>
              exact aggregate elements inner unknown values
                (ih _ (by rw [forestSize, treeSize, forestSize_append]; omega) _ rfl)

theorem pending_eq_forest (values : List Value) : pending values = forest values := by
  induction values using pending_induction with
  | nil => rw [pending, forest]
  | leaf content unknown values ih => rw [pending_leaf, ih, forest, tree]
  | aggregate elements inner unknown values ih => rw [pending, ih, forest_append, forest, tree]

theorem pending_eq_report (values : List Value) :
    pending values = report (invalid? (literalsAll values)) := by
  induction values using pending_induction with
  | nil => rw [pending]; rfl
  | leaf content unknown values ih =>
      rw [pending_leaf, ih, scalar_eq, literalsAll, literals, invalid?_append, report_or]
  | aggregate elements inner unknown values ih =>
      rw [pending, ih, literalsAll_append, literalsAll, literals]

/-! ## The rounds of the loop -/

theorem rounds_nil (n : Nat) : rounds n [] = .ok [] := by
  induction n with
  | zero => rfl
  | succ n ih => exact ih

theorem round_aggregate (elements : List Value) (inner unknown : UnknownFields)
    (stack : List Value) :
    round (.aggregate elements inner unknown :: stack) = .ok (elements ++ stack) := by
  simp [round]

/-- The loop ends, and what it finds, within as many rounds as there are values. -/
theorem rounds_eq (stack : List Value) {n : Nat} (hn : forestSize stack ≤ n) :
    rounds n stack = (pending stack).map fun _ => [] := by
  induction stack using pending_induction generalizing n with
  | nil => rw [rounds_nil, pending]; rfl
  | leaf content unknown stack ih =>
      rw [forestSize, treeSize] at hn
      obtain ⟨n, rfl⟩ := Nat.exists_eq_add_one.mpr (show 0 < n by omega)
      have hrest := ih (n := n) (by omega)
      rw [rounds, round, pending_leaf]
      cases scalar content with
      | error violation => rfl
      | ok _ => exact hrest
  | aggregate elements inner unknown stack ih =>
      rw [forestSize, treeSize] at hn
      obtain ⟨n, rfl⟩ := Nat.exists_eq_add_one.mpr (show 0 < n by omega)
      have hrest := ih (n := n) (by rw [forestSize_append]; omega)
      rw [rounds, round_aggregate, pending]
      exact hrest

/--
The loop finds what the recursion finds.  A value is valid exactly when all its big numbers are
decimal literals, and otherwise the violation is the first one in document order that is not.  And
the loop comes to its end, with nothing left on the stack or with a violation, in as many rounds as
the tree has values.
-/
theorem value_eq_tree (v : Value) :
    value v = tree v ∧
    (value v = .ok () ↔ ∀ literal ∈ literals v, Decimal literal) ∧
    (∀ violation, value v = .error violation ↔
      ∃ before literal after, literals v = before ++ literal :: after ∧
        (∀ earlier ∈ before, Decimal earlier) ∧ ¬ Decimal literal ∧
        violation = .invalidBigNumber literal) ∧
    ∀ n, treeSize v ≤ n → rounds n [v] = (value v).map fun _ => [] := by
  have hreport : value v = report (invalid? (literals v)) := by
    rw [value, pending_eq_report, literalsAll, literalsAll, List.append_nil]
  refine ⟨?_, ?_, ?_, ?_⟩
  · rw [value, pending_eq_forest, forest, forest]
    cases tree v <;> rfl
  · rw [hreport, report_eq_ok_iff, invalid?_eq_none_iff]
  · intro violation
    rw [hreport, report_eq_error_iff]
    constructor
    · intro h
      obtain ⟨literal, hfirst, rfl⟩ := h
      obtain ⟨hliteral, before, after, hsplit, hbefore⟩ := invalid?_eq_some_iff.mp hfirst
      exact ⟨before, literal, after, hsplit, hbefore, hliteral, rfl⟩
    · intro h
      obtain ⟨before, literal, after, hsplit, hbefore, hliteral, rfl⟩ := h
      exact ⟨literal, invalid?_eq_some_iff.mpr ⟨hliteral, before, after, hsplit, hbefore⟩, rfl⟩
  · intro n hn
    apply rounds_eq
    simpa [forestSize] using hn

/-- Of two literals that are none, the one that is deeper inside comes first. -/
example : value (.aggregate [.aggregate [.ofScalar (.bigNumber "4x")] [] [],
    .ofScalar (.bigNumber "")] [] []) = .error (.invalidBigNumber "4x") := by
  cbv

end Validation

end TestWire
