import Mathlib.Algebra.GroupWithZero.Nat
import TestWire.Inspect.Report
import TestWire.Proofs.Message.FrameByFrame
import TestWire.Proofs.Value.Leaves

/-! # Tallies

However values are put together, their tally is that of the verdicts on their leaves, one after the
other in document order.
-/

namespace TestWire

def Scalar.verdict? : Option Scalar → Option Verdict
  | some (.verdict v) => some v
  | _ => none

/-- The verdicts in a value, in document order. -/
def Value.verdicts (v : Value) : List Verdict :=
  v.leaves.filterMap Scalar.verdict?

namespace Tally

/-- Each ordinal as often as it was counted. -/
def unroll (counts : List (Int32 × Nat)) : List Int32 :=
  counts.flatMap fun entry => List.replicate entry.2 entry.1

/-- The ordinals are counted in ascending order, each of them once, as often as it occurs, and the
verdicts have overwritten one another. -/
structure Records (tally : Tally) (verdicts : List Verdict) : Prop where
  ascending : tally.counts.Pairwise fun entry later => entry.1 < later.1
  positive : ∀ entry ∈ tally.counts, 0 < entry.2
  unrolled : (unroll tally.counts).Perm (verdicts.map Verdict.ordinal)
  overall_eq : tally.overall = verdicts.foldl Verdict.overwrite .none

/-! ## Counts -/

section

variable {ordinal : Int32} {counts : List (Int32 × Nat)}

theorem unroll_cons (entry : Int32 × Nat) (counts : List (Int32 × Nat)) :
    unroll (entry :: counts) = List.replicate entry.2 entry.1 ++ unroll counts :=
  List.flatMap_cons

theorem unroll_bump (ordinal : Int32) (counts : List (Int32 × Nat)) :
    (unroll (bump ordinal counts)).Perm (ordinal :: unroll counts) := by
  induction counts with
  | nil => exact .refl _
  | cons entry counts ih =>
      rw [bump]
      split
      · exact .refl _
      · split
        · next heq =>
            rw [unroll_cons, unroll_cons, List.replicate_succ, heq]
            exact .refl _
        · rw [unroll_cons, unroll_cons]
          exact (ih.append_left _).trans List.perm_middle

theorem eq_or_mem_of_mem_bump {entry : Int32 × Nat} (h : entry ∈ bump ordinal counts) :
    entry.1 = ordinal ∨ entry ∈ counts := by
  induction counts with
  | nil => exact .inl (by rw [List.mem_singleton.mp h])
  | cons first counts ih =>
      rw [bump] at h
      split at h
      · rcases List.mem_cons.mp h with rfl | hmem
        · exact .inl rfl
        · exact .inr hmem
      · split at h
        · next heq =>
            rcases List.mem_cons.mp h with rfl | hmem
            · exact .inl heq.symm
            · exact .inr (List.mem_cons_of_mem _ hmem)
        · rcases List.mem_cons.mp h with rfl | hmem
          · exact .inr List.mem_cons_self
          · exact (ih hmem).imp_right (List.mem_cons_of_mem _)

theorem ascending_bump (h : counts.Pairwise fun entry later => entry.1 < later.1) :
    (bump ordinal counts).Pairwise fun entry later => entry.1 < later.1 := by
  induction counts with
  | nil => exact List.pairwise_singleton _ _
  | cons first counts ih =>
      rcases List.pairwise_cons.mp h with ⟨hfirst, hcounts⟩
      rw [bump]
      split
      · next hless =>
          refine List.pairwise_cons.mpr ⟨fun later hlater => ?_, h⟩
          rcases List.mem_cons.mp hlater with rfl | hmem
          · exact hless
          · exact Int32.lt_trans hless (hfirst later hmem)
      · next hless =>
          split
          · next heq => exact List.pairwise_cons.mpr ⟨hfirst, hcounts⟩
          · next hne =>
              refine List.pairwise_cons.mpr ⟨fun later hlater => ?_, ih hcounts⟩
              rcases eq_or_mem_of_mem_bump hlater with heq | hmem
              · show first.1 < later.1
                rw [← Int32.toInt_inj] at hne
                rw [heq, Int32.lt_iff_toInt_lt]
                rw [Int32.lt_iff_toInt_lt] at hless
                omega
              · exact hfirst later hmem

theorem positive_bump (h : ∀ entry ∈ counts, 0 < entry.2) :
    ∀ entry ∈ bump ordinal counts, 0 < entry.2 := by
  induction counts with
  | nil => simp [bump]
  | cons first counts ih =>
      rw [List.forall_mem_cons] at h
      rw [bump]
      split
      · simpa using h
      · split
        · simpa using h.2
        · exact List.forall_mem_cons.mpr ⟨h.1, ih h.2⟩

theorem mem_unroll_iff {n : Int32} :
    n ∈ unroll counts ↔ ∃ entry ∈ counts, 0 < entry.2 ∧ entry.1 = n := by
  simp [unroll, List.mem_flatMap, List.mem_replicate, Nat.pos_iff_ne_zero, eq_comm]

theorem count_unroll (h : counts.Pairwise fun entry later => entry.1 < later.1)
    {entry : Int32 × Nat} (hmem : entry ∈ counts) : (unroll counts).count entry.1 = entry.2 := by
  induction counts with
  | nil => cases hmem
  | cons first counts ih =>
      rcases List.pairwise_cons.mp h with ⟨hfirst, hcounts⟩
      rw [unroll_cons, List.count_append]
      rcases List.mem_cons.mp hmem with rfl | hmem
      · have hnone : entry.1 ∉ unroll counts := by
          intro hunroll
          rcases mem_unroll_iff.mp hunroll with ⟨later, hlater, _, heq⟩
          exact Int32.lt_irrefl (heq ▸ hfirst later hlater)
        rw [List.count_replicate_self, List.count_eq_zero.mpr hnone, Nat.add_zero]
      · have hne : first.1 ≠ entry.1 := fun heq => Int32.lt_irrefl (heq ▸ hfirst entry hmem)
        rw [List.count_replicate, if_neg (by simpa using hne), Nat.zero_add, ih hcounts hmem]

theorem length_unroll (counts : List (Int32 × Nat)) :
    (unroll counts).length = (counts.map Prod.snd).sum := by
  induction counts with
  | nil => rfl
  | cons entry counts ih =>
      rw [unroll_cons, List.length_append, List.length_replicate, ih, List.map_cons, List.sum_cons]

end

theorem total_eq_sum (tally : Tally) : tally.total = (tally.counts.map Prod.snd).sum := by
  unfold total
  induction tally.counts with
  | nil => rfl
  | cons entry counts ih => rw [List.foldr_cons, ih, List.map_cons, List.sum_cons]

/-! ## Recording verdicts -/

section

variable {tally : Tally} {verdicts : List Verdict}

theorem records_empty : Records {} [] :=
  ⟨.nil, nofun, .refl _, rfl⟩

theorem Records.addVerdict (h : tally.Records verdicts) (v : Verdict) :
    (tally.addVerdict v).Records (verdicts ++ [v]) where
  ascending := ascending_bump h.ascending
  positive := positive_bump h.positive
  unrolled := by
    rw [List.map_append]
    exact (unroll_bump _ _).trans
      ((h.unrolled.cons _).trans (List.perm_append_singleton _ _).symm)
  overall_eq := by
    rw [List.foldl_append, ← h.overall_eq]
    rfl

theorem Records.foldl_addVerdict (h : tally.Records verdicts) (more : List Verdict) :
    (more.foldl Tally.addVerdict tally).Records (verdicts ++ more) := by
  induction more generalizing tally verdicts with
  | nil => simpa using h
  | cons v more ih => simpa using ih (h.addVerdict v)

/-- The entries are the ordinals that occur, each with the number of its occurrences. -/
theorem Records.mem_counts_iff (h : tally.Records verdicts) {ordinal : Int32} {n : Nat} :
    (ordinal, n) ∈ tally.counts ↔
      0 < n ∧ n = verdicts.countP fun v => v.ordinal == ordinal := by
  have hcount : (unroll tally.counts).count ordinal =
      verdicts.countP fun v => v.ordinal == ordinal := by
    rw [h.unrolled.count_eq, List.count, List.countP_map]
    rfl
  constructor
  · intro hmem
    rw [← hcount]
    exact ⟨h.positive _ hmem, (count_unroll h.ascending hmem).symm⟩
  · rintro ⟨hpos, hn⟩
    rw [← hcount] at hn
    have hunroll : ordinal ∈ unroll tally.counts := List.count_pos_iff.mp (hn ▸ hpos)
    rcases mem_unroll_iff.mp hunroll with ⟨entry, hmem, _, rfl⟩
    rw [count_unroll h.ascending hmem] at hn
    rwa [hn]

theorem Records.total_eq (h : tally.Records verdicts) : tally.total = verdicts.length := by
  rw [total_eq_sum, ← length_unroll, h.unrolled.length_eq, List.length_map]

end

/-! ## Walking over values -/

theorem addAll_eq_foldl (tally : Tally) (values : List Value) :
    tally.addAll values = values.foldl Tally.add tally := by
  induction values generalizing tally with
  | nil => rfl
  | cons v values ih => rw [addAll, ih, List.foldl_cons]

theorem foldl_add_of_forall {values : List Value}
    (h : ∀ v ∈ values, ∀ tally : Tally, tally.add v = v.verdicts.foldl Tally.addVerdict tally)
    (tally : Tally) :
    values.foldl Tally.add tally =
      (values.flatMap Value.verdicts).foldl Tally.addVerdict tally := by
  induction values generalizing tally with
  | nil => rfl
  | cons v values ih =>
      rw [List.forall_mem_cons] at h
      rw [List.foldl_cons, List.flatMap_cons, List.foldl_append, h.1, ih h.2]

theorem add_eq_foldl (tally : Tally) (v : Value) :
    tally.add v = v.verdicts.foldl Tally.addVerdict tally := by
  induction v using Value.induction generalizing tally with
  | leaf content unknown =>
      rcases content with _ | scalar
      · rfl
      · cases scalar <;> rfl
  | aggregate values inner unknown ih =>
      rw [add, addAll_eq_foldl, Value.verdicts, Value.leaves, Value.leavesAll_eq_flatMap,
        List.filterMap_flatMap]
      exact foldl_add_of_forall ih tally

/-- Values that are added one after the other add the verdicts of all of them. -/
theorem foldl_add (tally : Tally) (values : List Value) :
    values.foldl Tally.add tally =
      (values.flatMap Value.verdicts).foldl Tally.addVerdict tally :=
  foldl_add_of_forall (fun v _ tally => add_eq_foldl tally v) tally

theorem records_foldl_add (values : List Value) :
    (values.foldl Tally.add {}).Records (values.flatMap Value.verdicts) := by
  rw [foldl_add]
  exact records_empty.foldl_addVerdict _

end Tally

namespace Inspect

/-- What decoding gives for an input: the frames of a stream, up to the first that fails, or the
input as one message. -/
def decoded (s : Schema) (delimited : Bool) (limits : DecodeLimits) (input : Bytes) :
    List (Except DecodeError (Message s)) :=
  if delimited then
    (Frame.decodeAll s limits input).map (Except.map Prod.fst)
  else
    [Message.decode s limits input]

theorem map_fst_items (s : Schema) (limits : DecodeLimits) (input : Bytes) :
    (FrameStream.items s limits ⟨input, false⟩).map Prod.fst =
      (Frame.decodeAll s limits input).map (Except.map Prod.fst) := by
  apply List.ext_getElem?
  intro n
  rw [List.getElem?_map, List.getElem?_map,
    (FrameStream.yields_decodeAll limits input).getElem?_items, Option.map_map]
  rfl

section

variable {items : List (Except DecodeError (Message .value) × FrameStream)}

theorem tallyItems_of_ok {values : List Value}
    (h : items.map Prod.fst = values.map .ok) (index : Nat) (tally : Tally) :
    tallyItems index tally items = .ok (values.foldl Tally.add tally) := by
  induction items generalizing values index tally with
  | nil =>
      obtain rfl : values = [] := by simpa [eq_comm] using h
      rfl
  | cons item items ih =>
      cases values with
      | nil => simp at h
      | cons v values =>
          rcases item with ⟨item, behind⟩
          rw [List.map_cons, List.map_cons, List.cons.injEq] at h
          obtain rfl : item = .ok v := h.1
          rw [tallyItems, ih h.2, List.foldl_cons]

theorem tallyItems_of_error {error : DecodeError} (h : .error error ∈ items.map Prod.fst)
    (index : Nat) (tally : Tally) : ∃ failure, tallyItems index tally items = .error failure := by
  induction items generalizing index tally with
  | nil => cases h
  | cons item items ih =>
      rcases item with ⟨item, behind⟩
      cases item with
      | error error => exact ⟨_, rfl⟩
      | ok v =>
          have hrest : .error error ∈ items.map Prod.fst := by simpa using h
          exact ih hrest (index + 1) (tally.add v)

end

section

variable {command : Command} {input : Bytes}

theorem verdicts_of_decoded {values : List Value}
    (h : decoded .value command.delimited command.limits input = values.map .ok) :
    verdicts command input = { lines := tallyLines (values.foldl Tally.add {}) } := by
  unfold decoded at h
  unfold verdicts
  by_cases hdelimited : command.delimited
  · rw [if_pos hdelimited, ← map_fst_items] at h
    rw [if_pos hdelimited, tallyItems_of_ok h]
  · obtain ⟨v, rfl⟩ : ∃ v, values = [v] := by
      have hlength := congrArg List.length h
      rw [if_neg hdelimited, List.length_map] at hlength
      exact List.length_eq_one_iff.mp hlength.symm
    rw [if_neg hdelimited] at h
    rw [if_neg hdelimited, List.head_eq_of_cons_eq h]
    rfl

theorem verdicts_of_error {error : DecodeError}
    (h : .error error ∈ decoded .value command.delimited command.limits input) :
    ∃ failure, verdicts command input = { failure := some failure } := by
  unfold decoded at h
  unfold verdicts
  by_cases hdelimited : command.delimited
  · rw [if_pos hdelimited, ← map_fst_items] at h
    rcases tallyItems_of_error h 0 {} with ⟨failure, hfailure⟩
    rw [if_pos hdelimited, hfailure]
    exact ⟨failure, rfl⟩
  · rw [if_neg hdelimited] at h
    rw [if_neg hdelimited, ← List.mem_singleton.mp h]
    exact ⟨_, rfl⟩

end

/--
However values are put together, their tally counts each ordinal that occurs on their leaves as
often as it occurs, in ascending order, the total is the number of the verdicts and the sum of the
counts, and the verdicts have overwritten one another in document order; an aggregate has the tally
of its elements.  A report on an input shows the tally of what is decoded from it, and when one
message fails it shows nothing.
-/
theorem verdicts_all_or_nothing (name : String) (delimited : Bool) (limits : DecodeLimits)
    (input : Bytes) :
    let report := run { action := .verdicts, input := name, delimited, limits } (.ok input)
    let messages := decoded .value delimited limits input
    (∀ values : List Value,
      let tally := values.foldl Tally.add {}
      let verdicts := values.flatMap Value.verdicts
      tally.counts.Pairwise (fun entry later => entry.1 < later.1) ∧
      (∀ ordinal n, (ordinal, n) ∈ tally.counts ↔
        0 < n ∧ n = verdicts.countP fun v => v.ordinal == ordinal) ∧
      tally.total = (tally.counts.map Prod.snd).sum ∧ tally.total = verdicts.length ∧
      tally.overall = verdicts.foldl Verdict.overwrite .none ∧
      (∀ inner unknown, Tally.add {} (.aggregate values inner unknown) = tally) ∧
      (messages = values.map .ok →
        report.stdout = String.join (List.map (· ++ "\n")
          (tally.counts.map (fun entry =>
              entryLine (Verdict.ofOrdinal entry.1).render (toString entry.2)) ++
            [entryLine "total" (toString tally.total),
              entryLine "overall" tally.overall.render])) ∧
        report.exitCode = 0)) ∧
    ∀ error, .error error ∈ messages → report.stdout = "" ∧ report.exitCode = 1 := by
  intro report messages
  constructor
  · intro values tally verdicts
    have hrecords : tally.Records verdicts := Tally.records_foldl_add values
    refine ⟨hrecords.ascending, fun _ _ => hrecords.mem_counts_iff, tally.total_eq_sum,
      hrecords.total_eq, hrecords.overall_eq, fun _ _ => Tally.addAll_eq_foldl {} values, ?_⟩
    intro hmessages
    have hreport : report = { lines := tallyLines tally } := verdicts_of_decoded hmessages
    rw [hreport]
    exact ⟨rfl, rfl⟩
  · intro error herror
    obtain ⟨failure, hreport⟩ : ∃ failure, report = { failure := some failure } :=
      verdicts_of_error herror
    rw [hreport]
    exact ⟨rfl, rfl⟩

/-- A verdict, and one in an aggregate; with a byte more, nothing is shown. -/
theorem verdicts_all_or_nothing_nested :
    let input : Bytes := [2, 0x18, 3, 6, 0x42, 4, 0x0a, 2, 0x18, 1]
    let values : List Value := [.ofScalar (.verdict .fail),
      .aggregate [.ofScalar (.verdict .pass)] [] []]
    let report (input : Bytes) :=
      run { action := .verdicts, input := "-", delimited := true } (.ok input)
    decoded .value true {} input = values.map .ok ∧
    (report input).stdout = "  pass                 1\n  fail                 1\n" ++
      "  total                2\n  overall              fail\n" ∧
    .error (.truncated "length prefix") ∈ decoded .value true {} (input ++ [0xff]) ∧
    (report (input ++ [0xff])).stdout = "" := by
  intro input values report
  have hdecoded : decoded .value true {} input = values.map .ok :=
    (map_fst_items .value {} input).symm.trans rfl
  have hcut : decoded .value true {} (input ++ [0xff]) =
      values.map .ok ++ [.error (.truncated "length prefix")] :=
    (map_fst_items .value {} (input ++ [0xff])).symm.trans rfl
  have herror : .error (.truncated "length prefix") ∈ decoded .value true {} (input ++ [0xff]) :=
    hcut ▸ List.mem_append_right _ List.mem_cons_self
  have hshown := (verdicts_all_or_nothing "-" true {} input).1 values
  have hnothing := (verdicts_all_or_nothing "-" true {} (input ++ [0xff])).2 _ herror
  refine ⟨hdecoded, (hshown.2.2.2.2.2.2 hdecoded).1.trans ?_, herror, hnothing.1⟩
  decide +kernel

end Inspect

end TestWire
