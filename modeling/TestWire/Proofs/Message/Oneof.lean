import TestWire.Proofs.Message.FieldRow

/-! # Which kind a merge leaves

The known fields of a value write its kind one after the other.  The kind that is left depends on
their end alone: on the last scalar, or on the aggregates behind it.
-/

namespace TestWire

/-! ## Joining composites -/

def Composite.append (c d : Composite) : Composite where
  values := c.values ++ d.values
  unknown := c.unknown ++ d.unknown

/-- A composite, and the parts that were added to it one after the other. -/
def Composite.join (c : Composite) (parts : List Composite) : Composite where
  values := c.values ++ parts.flatMap Composite.values
  unknown := c.unknown ++ parts.flatMap Composite.unknown

namespace Composite

@[simp] theorem append_empty (c : Composite) : c.append {} = c := by
  simp [append]

@[simp] theorem empty_append (c : Composite) : ({} : Composite).append c = c := by
  simp [append]

theorem append_assoc (c d e : Composite) : (c.append d).append e = c.append (d.append e) := by
  simp [append]

theorem append_eq_join (c d : Composite) : c.append d = c.join [d] := by
  simp [append, join]

theorem join_append (c : Composite) (parts : List Composite) (d : Composite) :
    (c.join parts).append d = c.join (parts ++ [d]) := by
  simp [append, join]

theorem FieldForm.exists_part {left : Nat} {merges : Value → Bytes → Value → Prop} {tag : Tag}
    {c c' : Composite} {payload : Bytes} (h : FieldForm left merges tag c payload c') :
    ∃ part, c' = c.append part ∧
      ∀ base : Composite, FieldForm left merges tag base payload (base.append part) := by
  cases h with
  | @element _ v payload body hprefixed hbody =>
      have hpush (base : Composite) : base.append ⟨[v], []⟩ = base.push v := by
        simp [append, push]
      refine ⟨⟨[v], []⟩, (hpush c).symm, fun base => ?_⟩
      rw [hpush]
      exact .element base hprefixed hbody
  | @unknown _ field hfield =>
      have hadd (base : Composite) : base.append ⟨[], [field]⟩ = base.addUnknown field := by
        simp [append, addUnknown]
      refine ⟨⟨[], [field]⟩, (hadd c).symm, fun base => ?_⟩
      rw [hadd]
      exact .unknown base hfield

theorem exists_part_of_fields {left : Nat} {merges : Value → Bytes → Value → Prop}
    {c c' : Composite} {body : Bytes} (h : Merged.Fields (FieldForm left merges) c body c') :
    ∃ part, c' = c.append part ∧
      ∀ base : Composite, Merged.Fields (FieldForm left merges) base body (base.append part) := by
  induction h with
  | done c =>
      refine ⟨{}, c.append_empty.symm, fun base => ?_⟩
      rw [append_empty]
      exact .done base
  | ended c hfront =>
      refine ⟨{}, c.append_empty.symm, fun base => ?_⟩
      rw [append_empty]
      exact .ended base hfront
  | field hfront htag hfield _ ih =>
      obtain ⟨first, rfl, hfirst⟩ := hfield.exists_part
      obtain ⟨others, rfl, hothers⟩ := ih
      refine ⟨first.append others, append_assoc _ _ _, fun base => ?_⟩
      rw [← append_assoc]
      exact .field hfront htag (hfirst base) (hothers _)

/-- Merging a region in place adds the same to every composite. -/
theorem Merges.exists_part {left : Nat} {c c' : Composite} {body : Bytes}
    (h : Merges left c body c') :
    ∃ part, c' = c.append part ∧ ∀ base : Composite, Merges left base body (base.append part) := by
  cases left <;> exact exists_part_of_fields h

end Composite

/-! ## Fields of values -/

theorem Message.FieldForm.value {left : Nat} {tag : Tag} {v v' : Value} {payload : Bytes}
    (h : FieldForm (s := .value) left tag v payload v') :
    Value.FieldForm left
      (fun c body c' => ∃ deeper, left = deeper + 1 ∧ Composite.Merges deeper c body c') tag v
      payload v' := by
  cases left with
  | zero => exact Value.FieldForm.mono (Nat.le_refl 0) (fun _ _ _ hfalse => hfalse.elim) h
  | succ left =>
      exact Value.FieldForm.mono (Nat.le_refl _) (fun _ _ _ hbody => ⟨left, rfl, hbody⟩) h

theorem Scalar.Form.unique {payload : Bytes} {scalar scalar' : Scalar} (h : Form payload scalar)
    (h' : Form payload scalar') (hcase : scalar.case = scalar'.case) : scalar = scalar' := by
  cases hread : reader? scalar.case with
  | none => exact (scalar.case_ne_aggregate (reader?_eq_none_iff.mp hread)).elim
  | some read =>
      have hfirst := (reader?_reads hread).ok_append ⟨rfl, h⟩ []
      have hsecond := (reader?_reads hread).ok_append ⟨hcase.symm, h'⟩ []
      rw [hfirst] at hsecond
      cases hsecond
      rfl

/-! ## Known fields -/

def Kind.composite? : Kind → Option Composite
  | scalar _ => none
  | aggregate composite => some composite

namespace Value

theorem composite?_eq_bind (v : Value) : v.composite? = v.kind?.bind Kind.composite? := by
  cases v with
  | leaf content unknown => cases content <;> rfl
  | aggregate values inner unknown => rfl

@[simp] theorem kind?_setScalar (v : Value) (scalar : Scalar) :
    (v.setScalar scalar).kind? = some (.scalar scalar) := rfl

@[simp] theorem kind?_setComposite (v : Value) (c : Composite) :
    (v.setComposite c).kind? = some (.aggregate c) := rfl

@[simp] theorem kind?_addUnknown (v : Value) (field : UnknownField) :
    (v.addUnknown field).kind? = v.kind? :=
  kind?_withUnknown v _

def kindTags : List Tag :=
  [⟨1, .lengthDelimited⟩, ⟨2, .varint⟩, ⟨3, .varint⟩, ⟨4, .lengthDelimited⟩, ⟨5, .fixed64⟩,
    ⟨6, .varint⟩, ⟨7, .lengthDelimited⟩, ⟨8, .lengthDelimited⟩]

theorem kindTags_eq_map_tag : kindTags = Case.all.map Case.tag := rfl

theorem tag_mem_kindTags (c : Case) : c.tag ∈ kindTags := by
  cases c <;> decide

theorem knows_iff_mem_kindTags {tag : Tag} : Schema.value.knows tag ↔ tag ∈ kindTags := by
  simp only [Schema.knows, Option.isSome_iff_exists, Case.ofTag?_eq_some_iff]
  refine ⟨?_, ?_⟩
  · rintro ⟨c, rfl⟩
    exact tag_mem_kindTags c
  · intro hmem
    obtain ⟨c, _, rfl⟩ := List.mem_map.mp (kindTags_eq_map_tag ▸ hmem)
    exact ⟨c, rfl⟩

/-- At the end of the known fields `before ++ run`, the aggregates are exactly those in `run`. -/
structure AggregateRun (before run : List UnknownField) : Prop where
  tags : ∀ field ∈ run, field.tag = Case.aggregate.tag
  maximal : ∀ field ∈ before.getLast?, field.tag ≠ Case.aggregate.tag

/-- The aggregates at the end of the known fields are joined, each with what its region decodes to
on its own; they join that of `a` when no other known field stands before them. -/
inductive KindAfter (limits : DecodeLimits) (a : Value) : List UnknownField → Option Kind → Prop
  | kept : KindAfter limits a [] a.kind?
  | scalar (before : List UnknownField) {last : UnknownField} {scalar : Scalar}
      (htag : last.tag = scalar.case.tag) (hform : Scalar.Form last.raw scalar) :
      KindAfter limits a (before ++ [last]) (some (.scalar scalar))
  | aggregate {before run : List UnknownField} {parts : List Composite} (hne : run ≠ [])
      (hrun : AggregateRun before run) (hlevel : 0 < limits.maxDepth)
      (hparts : (run.map fun field =>
        Message.decode .composite ⟨limits.maxDepth - 1, limits.maxSize⟩ field.payload) =
          parts.map .ok) :
      KindAfter limits a (before ++ run)
        (some (.aggregate ((if before = [] then a.composite?.getD {} else {}).join parts)))

/-! ### Aggregates at the end -/

namespace AggregateRun

variable {before run before' run' : List UnknownField}

theorem nil : AggregateRun [] [] :=
  ⟨by simp, by simp⟩

theorem of_scalar (before : List UnknownField) {last : UnknownField} {scalar : Scalar}
    (hlast : last.tag = scalar.case.tag) : AggregateRun (before ++ [last]) [] :=
  ⟨by simp, by simpa [hlast, Case.tag_inj] using scalar.case_ne_aggregate⟩

theorem append (h : AggregateRun before run) {field : UnknownField}
    (hfield : field.tag = Case.aggregate.tag) : AggregateRun before (run ++ [field]) := by
  refine ⟨?_, h.maximal⟩
  simpa [or_imp, forall_and] using And.intro h.tags hfield

theorem between_eq_nil {between : List UnknownField} (h : AggregateRun before (between ++ run))
    (h' : AggregateRun (before ++ between) run') : between = [] := by
  rcases List.eq_nil_or_concat between with hnil | ⟨others, last, rfl⟩
  · exact hnil
  · have hmem : last ∈ (before ++ others.concat last).getLast? := by simp
    exact (h'.maximal last hmem (h.tags last (by simp))).elim

/-- Fields are split in one way only before the aggregates at their end. -/
theorem unique (h : AggregateRun before run) (h' : AggregateRun before' run')
    (hsame : before ++ run = before' ++ run') : before = before' ∧ run = run' := by
  rcases List.append_eq_append_iff.mp hsame with ⟨between, rfl, rfl⟩ | ⟨between, rfl, rfl⟩
  · obtain rfl := h.between_eq_nil h'
    simp
  · obtain rfl := h'.between_eq_nil h
    simp

/-- Fields that end in a scalar do not end in aggregates. -/
theorem append_scalar_ne (h : AggregateRun before' run') (hne : run' ≠ []) {last : UnknownField}
    {scalar : Scalar} (hlast : last.tag = scalar.case.tag) :
    before ++ [last] ≠ before' ++ run' := by
  intro hsame
  rw [← List.append_nil (before ++ [last])] at hsame
  exact hne ((of_scalar before hlast).unique h hsame).2.symm

end AggregateRun

/-! ### Field by field -/

section

variable {limits : DecodeLimits} {a v v' : Value} {known : List UnknownField}

/-- Another aggregate joins those at the end, or begins to take the place of a scalar. -/
theorem KindAfter.append_aggregate (h : KindAfter limits a known v.kind?) {field : UnknownField}
    (htag : field.tag = Case.aggregate.tag) (hlevel : 0 < limits.maxDepth) {part : Composite}
    (hpart : Message.decode .composite ⟨limits.maxDepth - 1, limits.maxSize⟩ field.payload =
      .ok part) :
    KindAfter limits a (known ++ [field])
      (some (.aggregate ((v.composite?.getD {}).append part))) := by
  rw [composite?_eq_bind]
  generalize v.kind? = kind at h
  cases h with
  | kept =>
      rw [← composite?_eq_bind, Composite.append_eq_join]
      exact .aggregate (by simp) (AggregateRun.nil.append htag) hlevel (by simpa using hpart)
  | @scalar before last scalar hlast hform =>
      have hbegin : KindAfter limits a ((before ++ [last]) ++ [field]) (some (.aggregate
          ((if before ++ [last] = [] then a.composite?.getD {} else {}).join [part]))) :=
        .aggregate (by simp) ((AggregateRun.of_scalar before hlast).append htag) hlevel
          (by simpa using hpart)
      rw [if_neg (by simp), ← Composite.append_eq_join] at hbegin
      exact hbegin
  | aggregate _ hrun _ hparts =>
      simp only [Option.bind_some, Kind.composite?, Option.getD_some, Composite.join_append,
        List.append_assoc]
      exact .aggregate (by simp) (hrun.append htag) hlevel (by simp [hparts, hpart])

theorem KindAfter.step (h : KindAfter limits a known v.kind?) {field : UnknownField}
    (hsize : field.raw.length ≤ limits.maxSize)
    (hfield : Message.FieldForm (s := .value) limits.maxDepth field.tag v field.raw v') :
    KindAfter limits a (known ++ [field].filter fun field => field.tag ∈ kindTags) v'.kind? := by
  have hform := hfield.value
  generalize htag : field.tag = tag at hform
  generalize hraw : field.raw = payload at hform
  cases hform with
  | @scalar _ scalar payload hform =>
      have hknown : field.tag ∈ kindTags := by
        rw [htag]
        exact tag_mem_kindTags scalar.case
      rw [List.filter_cons_of_pos (by simpa using hknown), List.filter_nil, kind?_setScalar]
      exact .scalar known htag (hraw ▸ hform)
  | @aggregate _ c payload body hprefixed hbody =>
      have hknown : field.tag ∈ kindTags := by
        rw [htag]
        exact tag_mem_kindTags .aggregate
      rw [List.filter_cons_of_pos (by simpa using hknown), List.filter_nil, kind?_setComposite]
      obtain ⟨deeper, hdeeper, hmerges⟩ := hbody
      obtain ⟨part, rfl, hpart⟩ := hmerges.exists_part
      have halone := hpart {}
      rw [Composite.empty_append] at halone
      have hwire : field.wireType = .lengthDelimited := congrArg Tag.wireType htag
      have hbody : field.payload = body :=
        UnknownField.payload_of_prefixed hwire (hraw ▸ hprefixed)
      have hlength : body.length ≤ limits.maxSize := by
        have hle := hprefixed.length_le
        rw [← hraw] at hle
        omega
      have hdecode : Message.decode .composite ⟨limits.maxDepth - 1, limits.maxSize⟩ field.payload =
          .ok part := by
        rw [hbody, hdeeper]
        exact Message.decode_eq_ok_iff.mpr ⟨hlength, halone⟩
      exact h.append_aggregate htag (by omega) hdecode
  | @unknown _ other hother =>
      have hunknown : field.tag ∉ kindTags := by
        rw [htag, ← knows_iff_mem_kindTags, hother.unknown]
        simp
      rw [List.filter_cons_of_neg (by simpa using hunknown), List.filter_nil, List.append_nil,
        kind?_addUnknown]
      exact h

theorem KindAfter.unique {kind kind' : Option Kind} (h : KindAfter limits a known kind)
    (h' : KindAfter limits a known kind') : kind = kind' := by
  generalize hknown : known = known' at h'
  cases h with
  | kept =>
      cases h' with
      | kept => rfl
      | scalar => simp at hknown
      | aggregate hne => simp [hne] at hknown
  | scalar before hlast hform =>
      cases h' with
      | kept => simp at hknown
      | scalar before' hlast' hform' =>
          obtain ⟨_, hsame⟩ := List.append_inj' hknown rfl
          cases hsame
          have hcase := Case.tag_inj.mp (hlast.symm.trans hlast')
          rw [hform.unique hform' hcase]
      | aggregate hne' hrun' => exact (hrun'.append_scalar_ne hne' hlast hknown).elim
  | aggregate hne hrun _ hparts =>
      cases h' with
      | kept => simp [hne] at hknown
      | scalar before' hlast' _ => exact (hrun.append_scalar_ne hne hlast' hknown.symm).elim
      | aggregate _ hrun' _ hparts' =>
          obtain ⟨rfl, rfl⟩ := hrun.unique hrun' hknown
          have hsame := hparts.symm.trans hparts'
          rw [(List.map_inj_right fun _ _ => Except.ok.inj).mp hsame]

end

end Value

namespace Message

/-- What the fields of a row leave in a value, once fields before them have left its kind. -/
theorem kindAfter_of_makes {limits : DecodeLimits} {a : Value} {known fields : List UnknownField}
    {v v' : Message .value} (hsize : ∀ field ∈ fields, field.raw.length ≤ limits.maxSize)
    (h : Value.KindAfter limits a known (Value.kind? v))
    (hmakes : Merged.Makes (FieldForm limits.maxDepth) v fields v') :
    Value.KindAfter limits a
      (known ++ fields.filter fun field => field.tag ∈ Value.kindTags) (Value.kind? v') := by
  induction hmakes generalizing known with
  | nil v => simpa using h
  | @cons field fields v v₁ v' hfield _ ih =>
      have hhead := h.step (hsize field (by simp)) hfield
      have htail := ih (fun other hmem => hsize other (by simp [hmem])) hhead
      rw [← List.singleton_append, List.filter_append, ← List.append_assoc]
      exact htail

/--
After a merge, the unknown fields of a value are those it had, and behind them the fields of the
input that write no kind, in their order.  The other fields of the input say which kind it holds.
-/
theorem merge_oneof {limits : DecodeLimits} {a v : Message .value} {x : Bytes}
    (h : merge limits a x = ⟨v, .ok ()⟩) :
    let fields := (FieldRow.ofInput x).fields
    (FieldRow.ofInput x).Covers x ∧
    Value.unknown v =
      Value.unknown a ++ fields.filter (fun field => field.tag ∉ Value.kindTags) ∧
    ∀ kind, Value.KindAfter limits a (fields.filter fun field => field.tag ∈ Value.kindTags) kind ↔
      Value.kind? v = kind := by
  intro fields
  obtain ⟨hsize, hmerges⟩ := merge_ok_iff.mp h
  obtain ⟨hcovers, hmakes⟩ := hmerges.covers_and_makes
  refine ⟨hcovers, ?_, ?_⟩
  · have hforeign : (fun field : UnknownField => decide (field.tag ∉ Value.kindTags)) =
        fun field => !Schema.value.knows field.tag := by
      funext field
      simp [← Value.knows_iff_mem_kindTags]
    rw [hforeign]
    exact unknown_of_makes hmakes
  · intro kind
    have hleft : Value.KindAfter limits a
        (fields.filter fun field => field.tag ∈ Value.kindTags) (Value.kind? v) :=
      kindAfter_of_makes
        (fun field hmem => Nat.le_trans (hcovers.spells.length_raw_le hmem) hsize) .kept hmakes
    constructor
    · intro hkind
      exact hleft.unique hkind
    · rintro rfl
      exact hleft

/-- Aggregates that merge across a boolean, an early zero tag and the end of a group. -/
def overlaid : Bytes :=
  [0x42, 2, 0x0a, 0, 0x10, 1, 0xc2, 0, 4, 0x0a, 0, 0, 0xff, 0x12, 1, 0x41, 0x42, 2, 0x48, 7, 0x84,
    0, 0xff]

/-- The boolean has put an end to the aggregates before it, and those behind it are joined. -/
theorem merge_oneof_overlaid :
    let start : Message .value := Value.aggregate [.unset, .unset] [] [⟨9, .varint, [1]⟩]
    let final : Message .value := Value.aggregate [.unset] [⟨9, .varint, [7]⟩]
      [⟨9, .varint, [1]⟩, ⟨2, .lengthDelimited, [1, 0x41]⟩]
    merge ⟨2, 23⟩ start overlaid = ⟨final, .ok ()⟩ ∧
    Value.unknown final = Value.unknown start ++ [⟨2, .lengthDelimited, [1, 0x41]⟩] ∧
    Value.KindAfter ⟨2, 23⟩ start
      [⟨8, .lengthDelimited, [2, 0x0a, 0]⟩, ⟨2, .varint, [1]⟩,
        ⟨8, .lengthDelimited, [4, 0x0a, 0, 0, 0xff]⟩, ⟨8, .lengthDelimited, [2, 0x48, 7]⟩]
      (Value.kind? final) := by
  intro start final
  have hmerge : merge ⟨2, 23⟩ start overlaid = ⟨final, .ok ()⟩ := rfl
  have hfields : (FieldRow.ofInput overlaid).fields =
      [⟨8, .lengthDelimited, [2, 0x0a, 0]⟩, ⟨2, .varint, [1]⟩,
        ⟨8, .lengthDelimited, [4, 0x0a, 0, 0, 0xff]⟩, ⟨2, .lengthDelimited, [1, 0x41]⟩,
        ⟨8, .lengthDelimited, [2, 0x48, 7]⟩] := rfl
  obtain ⟨_, hunknown, hkind⟩ := merge_oneof hmerge
  rw [hfields] at hunknown hkind
  exact ⟨hmerge, hunknown, (hkind _).mpr rfl⟩

end Message

end TestWire
