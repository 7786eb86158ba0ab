import TestWire.Verdict

/-! # Verdicts that overwrite one another

Of verdicts that come one after the other the worst one stays, and of equally bad ones the first.
All verdicts without a name are equally bad, but not equal.
-/

namespace TestWire

namespace Verdict

/-- Named verdicts are compared by ordinal, and nothing is worse than a verdict without a name. -/
def NoWorse (v w : Verdict) : Prop :=
  w.isKnown = false ∨ (v.isKnown = true ∧ v.ordinal ≤ w.ordinal)

/-- What verdicts that come one after the other amount to. -/
def overall (verdicts : List Verdict) : Verdict :=
  verdicts.foldl overwrite none

/-- The first of the worst verdicts: all before it are less bad, and none behind it is worse. -/
def FirstWorst (verdicts : List Verdict) (worst : Verdict) : Prop :=
  ∃ before behind, verdicts = before ++ worst :: behind ∧
    (∀ v ∈ before, v.severity < worst.severity) ∧ ∀ v ∈ behind, v.severity ≤ worst.severity

/-! ## Severity -/

section

variable {v w : Verdict}

theorem isKnown_iff : v.isKnown = true ↔ 0 ≤ v.ordinal.toInt ∧ v.ordinal.toInt ≤ 4 := by
  simp [isKnown, Int32.le_iff_toInt_le]

theorem severity_of_known (h : v.isKnown = true) : v.severity = v.ordinal.toInt :=
  if_pos h

theorem severity_of_unknown (h : v.isKnown = false) : v.severity = 0x7fffffffffffffff := by
  simp [severity, h]

theorem severity_le_four_iff : v.severity ≤ 4 ↔ v.isKnown = true := by
  cases h : v.isKnown with
  | true => simp [severity_of_known h, (isKnown_iff.mp h).2]
  | false => simp [severity_of_unknown h]

theorem severity_nonneg (v : Verdict) : 0 ≤ v.severity := by
  cases h : v.isKnown with
  | true =>
      rw [severity_of_known h]
      exact (isKnown_iff.mp h).1
  | false => simp [severity_of_unknown h]

/-- Severity is the rank of a verdict in the order in which verdicts get worse. -/
theorem noWorse_iff : v.NoWorse w ↔ v.severity ≤ w.severity := by
  unfold NoWorse
  cases hv : v.isKnown with
  | true =>
      have hle := severity_le_four_iff.mpr hv
      cases hw : w.isKnown with
      | true => simp [severity_of_known hv, severity_of_known hw, Int32.le_iff_toInt_le]
      | false =>
          rw [severity_of_unknown hw]
          simp
          omega
  | false =>
      cases hw : w.isKnown with
      | true =>
          have hle := severity_le_four_iff.mpr hw
          rw [severity_of_unknown hv]
          simp
          omega
      | false => simp [severity_of_unknown hv, severity_of_unknown hw]

theorem beq_refl (v : Verdict) : (v == v) = true :=
  beq_iff.mpr rfl

theorem severity_congr (h : (v == w) = true) : v.severity = w.severity := by
  unfold severity isKnown
  rw [beq_iff.mp h]

theorem beq_of_severity_eq (hv : v.isKnown = true) (h : v.severity = w.severity) :
    (v == w) = true := by
  have hw : w.isKnown = true := by
    rwa [← severity_le_four_iff, ← h, severity_le_four_iff]
  rw [severity_of_known hv, severity_of_known hw] at h
  exact beq_iff.mpr (Int32.toInt_inj.mp h)

end

/-! ## Overwriting -/

section

variable {v w worst : Verdict} {verdicts others : List Verdict}

theorem overwrite_assoc (a b c : Verdict) :
    (a.overwrite b).overwrite c = a.overwrite (b.overwrite c) := by
  simp only [overwrite]
  grind

theorem overwrite_self (v : Verdict) : v.overwrite v = v :=
  if_neg (Int.lt_irrefl _)

theorem overwrite_none (v : Verdict) : v.overwrite none = v := by
  have hnone : none.severity = 0 := rfl
  have hle := severity_nonneg v
  exact if_neg (by omega)

theorem none_overwrite_beq (v : Verdict) : (none.overwrite v == v) = true := by
  have hnone : none.severity = 0 := rfl
  have hle := severity_nonneg v
  rw [overwrite]
  split
  · exact beq_refl v
  · exact beq_of_severity_eq rfl (by omega)

theorem overwrite_congr {v' w' : Verdict} (hv : (v == v') = true) (hw : (w == w') = true) :
    (v.overwrite w == v'.overwrite w') = true := by
  rw [overwrite, overwrite, severity_congr hv, severity_congr hw]
  split
  · exact hw
  · exact hv

namespace FirstWorst

theorem mem (h : FirstWorst verdicts worst) : worst ∈ verdicts := by
  rcases h with ⟨before, behind, rfl, _⟩
  simp

theorem severity_le (h : FirstWorst verdicts worst) (hv : v ∈ verdicts) :
    v.severity ≤ worst.severity := by
  rcases h with ⟨before, behind, rfl, hbefore, hbehind⟩
  rcases List.mem_append.mp hv with hmem | hmem
  · exact Int.le_of_lt (hbefore v hmem)
  · rcases List.mem_cons.mp hmem with rfl | hmem
    · exact Int.le_refl _
    · exact hbehind v hmem

/-- A worse verdict at the end takes the place of the worst one, any other changes nothing. -/
theorem overwrite (h : FirstWorst verdicts worst) (v : Verdict) :
    FirstWorst (verdicts ++ [v]) (worst.overwrite v) := by
  rw [Verdict.overwrite]
  split
  · next hworse =>
      refine ⟨verdicts, [], rfl, fun w hw => ?_, by simp⟩
      have hle := h.severity_le hw
      omega
  · next hnot =>
      rcases h with ⟨before, behind, rfl, hbefore, hbehind⟩
      refine ⟨before, behind ++ [v], by simp, hbefore, fun w hw => ?_⟩
      rcases List.mem_append.mp hw with hmem | hmem
      · exact hbehind w hmem
      · rw [List.mem_singleton.mp hmem]
        omega

theorem foldl_overwrite (h : FirstWorst verdicts worst) (more : List Verdict) :
    FirstWorst (verdicts ++ more) (more.foldl Verdict.overwrite worst) := by
  induction more generalizing verdicts worst with
  | nil => simpa using h
  | cons v more ih => simpa using ih (h.overwrite v)

/-- The first unknown verdict is worse than all before it, and nothing behind it is worse. -/
theorem find?_unknown (h : FirstWorst verdicts worst) (hworst : worst.isKnown = false) :
    verdicts.find? (!·.isKnown) = some worst := by
  rcases h with ⟨before, behind, rfl, hbefore, _⟩
  have hknown : before.find? (!·.isKnown) = Option.none := by
    rw [List.find?_eq_none]
    intro v hv hunknown
    have hlt := hbefore v hv
    rw [severity_of_unknown hworst, severity_of_unknown (by simpa using hunknown)] at hlt
    omega
  rw [List.find?_append, hknown]
  simp [hworst]

end FirstWorst

theorem firstWorst_overall (verdicts : List Verdict) :
    FirstWorst (none :: verdicts) (overall verdicts) := by
  have hnone : FirstWorst [none] none := ⟨[], [], rfl, by simp, by simp⟩
  exact hnone.foldl_overwrite verdicts

theorem severity_le_overall (hv : v ∈ verdicts) : v.severity ≤ (overall verdicts).severity :=
  (firstWorst_overall verdicts).severity_le (List.mem_cons_of_mem _ hv)

theorem overall_unknown (hv : v ∈ verdicts) (hunknown : v.isKnown = false) :
    (overall verdicts).isKnown = false := by
  have hle := severity_le_overall hv
  rw [severity_of_unknown hunknown] at hle
  rw [← Bool.not_eq_true, ← severity_le_four_iff]
  omega

theorem mem_of_overall_unknown (h : (overall verdicts).isKnown = false) :
    overall verdicts ∈ verdicts := by
  rcases List.mem_cons.mp (firstWorst_overall verdicts).mem with hnone | hmem
  · rw [hnone] at h
    cases h
  · exact hmem

theorem overall_eq_of_find?_eq_some (h : verdicts.find? (!·.isKnown) = some v) :
    overall verdicts = v := by
  have hunknown : v.isKnown = false := by simpa using List.find?_some h
  have hfound := (firstWorst_overall verdicts).find?_unknown
    (overall_unknown (List.mem_of_find?_eq_some h) hunknown)
  have hskip : (none :: verdicts).find? (!·.isKnown) = verdicts.find? (!·.isKnown) := rfl
  rw [hskip, h] at hfound
  exact (Option.some.inj hfound).symm

/-- Without unknown verdicts the overall one is one of them with the largest ordinal. -/
theorem exists_mem_overall_beq (hknown : ∀ v ∈ verdicts, v.isKnown = true) (hne : verdicts ≠ []) :
    ∃ v ∈ verdicts, (overall verdicts == v) = true ∧ ∀ w ∈ verdicts, w.ordinal ≤ v.ordinal := by
  have hle (v : Verdict) (hv : v ∈ verdicts) (heq : (overall verdicts == v) = true) :
      ∀ w ∈ verdicts, w.ordinal ≤ v.ordinal := by
    intro w hw
    have hworse := severity_le_overall hw
    rw [severity_congr heq, severity_of_known (hknown v hv), severity_of_known (hknown w hw),
      ← Int32.le_iff_toInt_le] at hworse
    exact hworse
  rcases List.mem_cons.mp (firstWorst_overall verdicts).mem with hnone | hmem
  · -- Nothing has overwritten the verdict at the start, so all are as good as that.
    rcases List.exists_mem_of_ne_nil verdicts hne with ⟨v, hv⟩
    have hzero := severity_le_overall hv
    have hnonneg := severity_nonneg v
    have heq : (overall verdicts == v) = true := by
      rw [hnone] at hzero ⊢
      exact beq_of_severity_eq rfl (Int.le_antisymm hnonneg hzero)
    exact ⟨v, hv, heq, hle v hv heq⟩
  · exact ⟨_, hmem, beq_refl _, hle _ hmem (beq_refl _)⟩

theorem severity_overall_le (h : verdicts ⊆ others) :
    (overall verdicts).severity ≤ (overall others).severity :=
  (firstWorst_overall others).severity_le
    (List.cons_subset_cons none h (firstWorst_overall verdicts).mem)

theorem overall_beq_of_perm (h : verdicts.Perm others)
    (hone : ∀ v ∈ verdicts, ∀ w ∈ verdicts, v.isKnown = false → w.isKnown = false →
      (v == w) = true) : (overall verdicts == overall others) = true := by
  have hseverity : (overall verdicts).severity = (overall others).severity :=
    Int.le_antisymm (severity_overall_le h.subset) (severity_overall_le h.symm.subset)
  cases hknown : (overall verdicts).isKnown with
  | true => exact beq_of_severity_eq hknown hseverity
  | false =>
      have hknown' : (overall others).isKnown = false := by
        rw [← Bool.not_eq_true, ← severity_le_four_iff, ← hseverity,
          severity_of_unknown hknown]
        omega
      exact hone _ (mem_of_overall_unknown hknown) _
        (h.mem_iff.mpr (mem_of_overall_unknown hknown')) hknown hknown'

/-- Any unknown verdict becomes the overall one when it is put in front. -/
theorem exists_perm_overall_eq (hv : v ∈ verdicts) (hunknown : v.isKnown = false) :
    ∃ others, verdicts.Perm others ∧ overall others = v := by
  rcases List.append_of_mem hv with ⟨before, behind, rfl⟩
  refine ⟨v :: (before ++ behind), List.perm_middle, overall_eq_of_find?_eq_some ?_⟩
  simp [hunknown]

/-- The order of the verdicts matters exactly when two of them are unknown and differ. -/
theorem overall_perm_iff :
    (∀ others, verdicts.Perm others → (overall verdicts == overall others) = true) ↔
      ∀ v ∈ verdicts, ∀ w ∈ verdicts, v.isKnown = false → w.isKnown = false →
        (v == w) = true := by
  constructor
  · intro h v hv w hw hunknown hunknown'
    rcases exists_perm_overall_eq hv hunknown with ⟨others, hperm, rfl⟩
    rcases exists_perm_overall_eq hw hunknown' with ⟨others', hperm', rfl⟩
    have heq := beq_iff.mp (h others hperm)
    have heq' := beq_iff.mp (h others' hperm')
    exact beq_iff.mpr (heq.symm.trans heq')
  · intro h others hperm
    exact overall_beq_of_perm hperm h

end

/--
Overwriting is associative and idempotent, keeps what is paired with the best verdict of all, and
looks at nothing but ordinals.  Verdicts in a row amount to the first unknown one, or to one with
the largest ordinal; that never gets better when verdicts are added anywhere, nothing hides an
unknown verdict, and the order matters exactly when two verdicts are unknown and differ.
-/
theorem overwrite_leftmost_worst :
    (∀ a b c : Verdict, (a.overwrite b).overwrite c = a.overwrite (b.overwrite c)) ∧
    (∀ a : Verdict, a.overwrite a = a) ∧
    (∀ a : Verdict, none.overwrite a == a ∧ a.overwrite none == a) ∧
    (∀ a a' b b' : Verdict, a == a' → b == b' → a.overwrite b == a'.overwrite b') ∧
    overall [] = none ∧
    ∀ verdicts : List Verdict,
      (∀ v, verdicts.find? (!·.isKnown) = some v → overall verdicts = v) ∧
      ((∀ v ∈ verdicts, v.isKnown) → verdicts ≠ [] →
        ∃ v ∈ verdicts, overall verdicts == v ∧ ∀ w ∈ verdicts, w.ordinal ≤ v.ordinal) ∧
      (∀ more, verdicts ⊆ more → (overall verdicts).NoWorse (overall more)) ∧
      (∀ v ∈ verdicts, v.isKnown = false → (overall verdicts).isKnown = false) ∧
      ((∀ others, verdicts.Perm others → overall verdicts == overall others) ↔
        ∀ v ∈ verdicts, ∀ w ∈ verdicts, v.isKnown = false → w.isKnown = false → v == w) := by
  refine ⟨overwrite_assoc, overwrite_self, fun a => ⟨none_overwrite_beq a, ?_⟩,
    fun _ _ _ _ => overwrite_congr, rfl, fun verdicts => ?_⟩
  · rw [overwrite_none]
    exact beq_refl a
  · refine ⟨fun v => overall_eq_of_find?_eq_some, exists_mem_overall_beq, fun more h => ?_,
      fun v => overall_unknown, overall_perm_iff⟩
    exact noWorse_iff.mpr (severity_overall_le h)

/-- One unknown ordinal stands in whatever order the named ones come, the first of two stands. -/
theorem overwrite_leftmost_worst_reordered :
    let verdicts : List Verdict := [.other 2, .fail, .other (-1), .error]
    let others : List Verdict := [.error, .other (-1), .fail, .other 2]
    overall verdicts = .other (-1) ∧ (verdicts.Perm others ∧ overall verdicts == overall others) ∧
    overall [.other 7, .other (-1)] = .other 7 ∧
    (overall [.other 2, .fail]).NoWorse (overall verdicts) ∧
    ∃ v ∈ [Verdict.other 2, .fail], overall [.other 2, .fail] == v ∧ (3 : Int32) ≤ v.ordinal := by
  intro verdicts others
  have hperm : verdicts.Perm others := (List.reverse_perm verdicts).symm
  obtain ⟨_, _, _, _, _, hlists⟩ := overwrite_leftmost_worst
  obtain ⟨hfirst, _, _, _, horder⟩ := hlists verdicts
  obtain ⟨hfirst', _⟩ := hlists [.other 7, .other (-1)]
  obtain ⟨_, hlargest, hgrows, _⟩ := hlists [.other 2, .fail]
  have hone : ∀ v ∈ verdicts, ∀ w ∈ verdicts, v.isKnown = false → w.isKnown = false →
      (v == w) = true := by decide
  have hknown : ∀ v ∈ [Verdict.other 2, .fail], v.isKnown = true := by decide
  obtain ⟨v, hv, heq, hle⟩ := hlargest hknown (by simp)
  refine ⟨hfirst _ rfl, ⟨hperm, horder.mpr hone others hperm⟩, hfirst' _ rfl, hgrows verdicts ?_,
    v, hv, heq, hle .fail (by simp)⟩
  simp [verdicts]

end Verdict

end TestWire
