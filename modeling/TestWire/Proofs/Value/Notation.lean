import TestWire.Proofs.Text.Words
import TestWire.Proofs.Value.Leaves

/-! # The notation of values

The text of a valid value without reals tells its tree.  It leaves out unknown fields, and whether a
number was sent as an integer or as its decimal text.
-/

namespace TestWire

open Notation

def Scalar.shown : Scalar → Scalar
  | .verdict v => .verdict (.ofOrdinal v.ordinal)
  | .integer n => .bigNumber (toString n)
  | scalar => scalar

mutual

/-- The tree without unknown fields, with verdicts by the name of their ordinal and with integers as
big numbers. -/
def Value.shown : Value → Value
  | .leaf content _ => .leaf (content.map Scalar.shown) []
  | .aggregate values _ _ => .aggregate (Value.shownAll values) [] []

def Value.shownAll : List Value → List Value
  | [] => []
  | v :: values => v.shown :: Value.shownAll values

end

/-- What can be read back: no reals, and as big numbers decimal literals only. -/
def Scalar.Legible : Scalar → Prop
  | .real _ => False
  | .bigNumber literal => Validation.Decimal literal
  | _ => True

def Value.Legible (v : Value) : Prop :=
  ∀ content ∈ v.leaves, ∀ scalar, content = some scalar → scalar.Legible

/-- The kinds of values that the beginning of their text tells apart. -/
inductive Look
  | omit
  | octets
  | boolean
  | verdict
  | text
  | number
  | aggregate
  deriving DecidableEq

def Look.ofText? : List Char → Option Look
  | '{' :: _ => some .aggregate
  | '"' :: _ => some .text
  | '\'' :: _ => some .octets
  | 'o' :: _ => some .omit
  | 't' :: _ => some .boolean
  | 'f' :: 'a' :: 'l' :: _ => some .boolean
  | c :: _ =>
      if c = '-' ∨ '0' ≤ c ∧ c ≤ '9' then some .number
      else if c ∈ ['n', 'p', 'i', 'f', 'e', 'v'] then some .verdict
      else none
  | [] => none

def Scalar.look : Scalar → Look
  | .octets _ => .octets
  | .boolean _ => .boolean
  | .verdict _ => .verdict
  | .text _ => .text
  | .real _ | .integer _ | .bigNumber _ => .number

def Value.look : Value → Look
  | .leaf none _ => .omit
  | .leaf (some scalar) _ => scalar.look
  | .aggregate .. => .aggregate

/-! ## How a text begins -/

theorem Look.ofText?_number {c : Char} (hc : c = '-' ∨ '0' ≤ c ∧ c ≤ '9') (rest : List Char) :
    ofText? (c :: rest) = some .number := by
  unfold ofText?
  split
  case h_7 c' rest' _ _ _ _ _ _ heq =>
    cases heq
    exact if_pos hc
  case h_8 heq => cases heq
  -- No other first letter is a digit or a sign.
  all_goals
    next heq =>
      cases heq
      exact absurd hc (by decide)

theorem Look.ofText?_decimal {literal : String} (h : Validation.Decimal literal)
    (rest : List Char) : ofText? (literal.toList ++ rest) = some .number := by
  rcases h with ⟨digits, hne, hdigits, hplain | hsigned⟩
  · cases digits with
    | nil => exact (hne rfl).elim
    | cons c digits =>
        rw [hplain]
        exact ofText?_number (.inr (hdigits c List.mem_cons_self)) _
  · rw [hsigned]
    exact ofText?_number (.inl rfl) _

theorem Look.ofText?_verdictWord (v : Verdict) (rest : List Char) :
    ofText? (verdictWord v ++ rest) = some .verdict := by
  cases v <;> rfl

theorem Look.ofText?_scalar {scalar : Scalar} (h : scalar.Legible) (rest : List Char) :
    ofText? (scalar.render.toList ++ rest) = some scalar.look := by
  cases scalar with
  | octets data =>
      rw [Scalar.render, String.toList_append, String.toList_append]
      rfl
  | boolean value => cases value <;> rfl
  | verdict v =>
      rw [Scalar.render, toList_render_verdict]
      exact ofText?_verdictWord _ _
  | text content =>
      rw [Scalar.render, Charstring.quote, String.toList_ofList]
      rfl
  | real x => exact h.elim
  | integer n => exact ofText?_decimal (decimal_toString n) rest
  | bigNumber literal => exact ofText?_decimal h rest

/-! ## Scalars -/

theorem Scalar.word_render {scalar : Scalar} (h : scalar.Legible) (htext : scalar.look ≠ .text) :
    Word scalar.render.toList := by
  cases scalar with
  | octets data =>
      rw [render, String.toList_append, String.toList_append]
      exact .append (.append (by decide) (word_upperHex data)) (by decide)
  | boolean value => cases value <;> decide
  | verdict v =>
      rw [render, toList_render_verdict]
      exact word_verdictWord _
  | text content => exact (htext rfl).elim
  | real x => exact h.elim
  | integer n => exact word_of_decimal (decimal_toString n)
  | bigNumber literal => exact word_of_decimal h

/-- What the beginning tells of a scalar that is not a number. -/
theorem Scalar.of_look {scalar : Scalar} {look : Look} (h : scalar.look = look) :
    match look with
    | .octets => ∃ data, scalar = .octets data
    | .boolean => ∃ value, scalar = .boolean value
    | .verdict => ∃ v, scalar = .verdict v
    | .text => ∃ content, scalar = .text content
    | .number => True
    | .omit | .aggregate => False := by
  subst h
  cases scalar <;> first | exact ⟨_, rfl⟩ | exact trivial

theorem Scalar.look_ne_omit (scalar : Scalar) : scalar.look ≠ .omit :=
  of_look

theorem Scalar.render_shown (scalar : Scalar) : scalar.shown.render = scalar.render := by
  cases scalar with
  | verdict v => simp only [shown, render, Verdict.render, Verdict.ordinal_ofOrdinal]
  | _ => rfl

theorem Scalar.shown_of_number {scalar : Scalar} (h : scalar.Legible)
    (hlook : scalar.look = .number) : scalar.shown = .bigNumber scalar.render := by
  cases scalar with
  | integer n => rfl
  | bigNumber literal => rfl
  | real x => exact h.elim
  | _ => cases hlook

/-- Words that begin alike and are the same tell the same. -/
theorem Scalar.shown_eq_of_render_eq {scalar other : Scalar} (h : scalar.Legible)
    (hother : other.Legible) (htext : scalar.look ≠ .text) (hlook : scalar.look = other.look)
    (hrender : scalar.render = other.render) : scalar.shown = other.shown := by
  cases scalar with
  | octets data =>
      obtain ⟨data', rfl⟩ : ∃ data', other = .octets data' := of_look hlook.symm
      have hdigits := (String.append_left_inj _).mp hrender
      rw [upperHex_inj ((String.append_right_inj _).mp hdigits)]
  | boolean value =>
      obtain ⟨value', rfl⟩ : ∃ value', other = .boolean value' := of_look hlook.symm
      cases value <;> cases value' <;> first | rfl | exact absurd hrender (by decide)
  | verdict v =>
      obtain ⟨v', rfl⟩ : ∃ v', other = .verdict v' := of_look hlook.symm
      have hword := congrArg String.toList hrender
      rw [render, render, toList_render_verdict, toList_render_verdict] at hword
      rw [shown, shown, verdictWord_inj hword]
  | text content => exact (htext rfl).elim
  | real x => exact h.elim
  | integer n => rw [shown_of_number h rfl, shown_of_number hother hlook.symm, hrender]
  | bigNumber literal => rw [shown_of_number h rfl, shown_of_number hother hlook.symm, hrender]

theorem Scalar.render_append_inj {scalar other : Scalar} {rest rest' : List Char}
    (h : scalar.Legible) (hother : other.Legible) (hrest : Stops rest) (hrest' : Stops rest')
    (hrender : scalar.render.toList ++ rest = other.render.toList ++ rest') :
    scalar.shown = other.shown ∧ rest = rest' := by
  have hlook : scalar.look = other.look := by
    apply Option.some.inj
    rw [← Look.ofText?_scalar h rest, hrender, Look.ofText?_scalar hother]
  by_cases htext : scalar.look = .text
  · obtain ⟨content, rfl⟩ : ∃ content, scalar = .text content := of_look htext
    obtain ⟨content', rfl⟩ : ∃ content', other = .text content' := of_look hlook.symm
    rcases quote_append_inj hrest hrest' hrender with ⟨rfl, hsame⟩
    exact ⟨rfl, hsame⟩
  · have hword' := word_render hother (hlook ▸ htext)
    rcases (word_render h htext).append_inj hword' hrest hrest' hrender with ⟨hsame, hafter⟩
    exact ⟨shown_eq_of_render_eq h hother htext hlook (String.toList_inj.mp hsame), hafter⟩

/-! ## Aggregates -/

namespace Value

/-- What stands behind an element: the other ones, each behind a comma, and the closing brace. -/
def behind : List Value → List Char
  | [] => [' ', '}']
  | v :: values => ',' :: ' ' :: (v.render.toList ++ behind values)

/-- What stands behind the opening brace and its blank. -/
def inside : List Value → List Char
  | [] => ['}']
  | v :: values => v.render.toList ++ behind values

theorem toList_intercalate_renderAll (v : Value) (values : List Value) :
    (", ".intercalate (renderAll (v :: values))).toList ++ [' ', '}'] = inside (v :: values) := by
  induction values generalizing v with
  | nil => rw [renderAll, renderAll, String.intercalate_singleton]; rfl
  | cons w values ih =>
      rw [renderAll, renderAll, String.intercalate_cons_cons, String.toList_append,
        String.toList_append, ← renderAll, List.append_assoc, List.append_assoc, ih w]
      rfl

theorem toList_render_aggregate (values : List Value) (inner unknown : UnknownFields) :
    (aggregate values inner unknown).render.toList = '{' :: ' ' :: inside values := by
  rw [render]
  cases values with
  | nil => rfl
  | cons v values =>
      rw [← toList_intercalate_renderAll]
      exact String.toList_ofList

theorem stops_behind (values : List Value) (rest : List Char) : Stops (behind values ++ rest) := by
  cases values with
  | nil => exact stops_cons (.inl rfl) _
  | cons v values => exact stops_cons (.inr rfl) _

theorem ofText?_render {v : Value} (h : v.Legible) (rest : List Char) :
    Look.ofText? (v.render.toList ++ rest) = some v.look := by
  cases v with
  | leaf content unknown =>
      cases content with
      | none =>
          rw [render]
          rfl
      | some scalar =>
          rw [render]
          exact Look.ofText?_scalar (h _ List.mem_cons_self scalar rfl) rest
  | aggregate values inner unknown =>
      rw [toList_render_aggregate]
      rfl

theorem look_eq_of_render_append_eq {v other : Value} {rest rest' : List Char} (h : v.Legible)
    (hother : other.Legible) (htext : v.render.toList ++ rest = other.render.toList ++ rest') :
    v.look = other.look := by
  apply Option.some.inj
  rw [← ofText?_render h rest, htext, ofText?_render hother]

theorem render_append_ne {v : Value} (h : v.Legible) (rest rest' : List Char) :
    v.render.toList ++ rest ≠ '}' :: rest' := by
  intro heq
  have hlook := ofText?_render h rest
  rw [heq] at hlook
  cases hlook

/-- From what the text of the value begins, its tree is told, and where it ends. -/
def Readable (v : Value) : Prop :=
  ∀ (other : Value) (rest rest' : List Char), other.Legible → Stops rest → Stops rest' →
    v.render.toList ++ rest = other.render.toList ++ rest' → v.shown = other.shown ∧ rest = rest'

theorem behind_append_inj {values others : List Value} {rest rest' : List Char}
    (h : ∀ v ∈ values, v.Readable) (hothers : ∀ v ∈ others, v.Legible)
    (htext : behind values ++ rest = behind others ++ rest') :
    shownAll values = shownAll others ∧ rest = rest' := by
  induction values generalizing others with
  | nil =>
      cases others with
      | nil => exact ⟨rfl, List.append_cancel_left htext⟩
      | cons other others => cases htext
  | cons v values ih =>
      cases others with
      | nil => cases htext
      | cons other others =>
          rw [List.forall_mem_cons] at h hothers
          simp only [behind, List.cons_append, List.append_assoc, List.cons.injEq, true_and]
            at htext
          rcases h.1 other _ _ hothers.1 (stops_behind _ _) (stops_behind _ _) htext with
            ⟨hhead, htail⟩
          rcases ih h.2 hothers.2 htail with ⟨hvalues, hrest⟩
          exact ⟨by rw [shownAll, shownAll, hhead, hvalues], hrest⟩

theorem inside_append_inj {values others : List Value} {rest rest' : List Char}
    (h : ∀ v ∈ values, v.Readable) (hlegible : ∀ v ∈ values, v.Legible)
    (hothers : ∀ v ∈ others, v.Legible)
    (htext : inside values ++ rest = inside others ++ rest') :
    shownAll values = shownAll others ∧ rest = rest' := by
  cases values with
  | nil =>
      cases others with
      | nil => exact ⟨rfl, List.append_cancel_left htext⟩
      | cons other others =>
          rw [inside, inside, List.append_assoc] at htext
          exact (render_append_ne (hothers _ List.mem_cons_self) _ _ htext.symm).elim
  | cons v values =>
      cases others with
      | nil =>
          rw [inside, inside, List.append_assoc] at htext
          exact (render_append_ne (hlegible _ List.mem_cons_self) _ _ htext).elim
      | cons other others =>
          -- Behind a separator, the elements are those that stand behind another one.
          apply behind_append_inj h hothers
          rw [inside, inside] at htext
          rw [behind, behind, List.cons_append, List.cons_append, List.cons_append,
            List.cons_append, htext]

/-! ## Values -/

theorem look_leaf_ne_aggregate (content : Option Scalar) (unknown : UnknownFields) :
    (leaf content unknown).look ≠ .aggregate := by
  cases content with
  | none => nofun
  | some scalar => cases scalar <;> nofun

theorem leaf_append_inj {content content' : Option Scalar} {unknown unknown' : UnknownFields}
    {rest rest' : List Char} (h : (leaf content unknown).Legible)
    (h' : (leaf content' unknown').Legible)
    (hlook : (leaf content unknown).look = (leaf content' unknown').look)
    (hrest : Stops rest) (hrest' : Stops rest')
    (htext : (leaf content unknown).render.toList ++ rest =
      (leaf content' unknown').render.toList ++ rest') :
    (leaf content unknown).shown = (leaf content' unknown').shown ∧ rest = rest' := by
  rcases content with _ | scalar
  · rcases content' with _ | scalar'
    · rw [render, render] at htext
      exact ⟨rfl, List.append_cancel_left htext⟩
    · exact (scalar'.look_ne_omit hlook.symm).elim
  · rcases content' with _ | scalar'
    · exact (scalar.look_ne_omit hlook).elim
    · rw [render, render] at htext
      have hscalar := Scalar.render_append_inj (h _ List.mem_cons_self scalar rfl)
        (h' _ List.mem_cons_self scalar' rfl) hrest hrest' htext
      exact ⟨by rw [shown, shown, Option.map_some, Option.map_some, hscalar.1], hscalar.2⟩

theorem readable {v : Value} (h : v.Legible) : v.Readable := by
  induction v using Value.induction with
  | leaf content unknown =>
      intro other rest rest' hother hrest hrest' htext
      have hlook := look_eq_of_render_append_eq h hother htext
      cases other with
      | leaf content' unknown' => exact leaf_append_inj h hother hlook hrest hrest' htext
      | aggregate => exact (look_leaf_ne_aggregate _ _ hlook).elim
  | aggregate values inner unknown ih =>
      intro other rest rest' hother hrest hrest' htext
      have hlook := look_eq_of_render_append_eq h hother htext
      cases other with
      | leaf => exact (look_leaf_ne_aggregate _ _ hlook.symm).elim
      | aggregate others inner' unknown' =>
          have hvalues : ∀ v ∈ values, v.Legible := forall_leaves_aggregate_iff.mp h
          rw [toList_render_aggregate, toList_render_aggregate] at htext
          have hinside := inside_append_inj (fun v hv => ih v hv (hvalues v hv)) hvalues
            (forall_leaves_aggregate_iff.mp hother) (by simpa using htext)
          exact ⟨by rw [shown, shown, hinside.1], hinside.2⟩

/-! ## The tree that is told -/

theorem renderAll_shownAll_of_forall {values : List Value}
    (h : ∀ v ∈ values, v.shown.render = v.render) :
    renderAll (shownAll values) = renderAll values := by
  induction values with
  | nil => rfl
  | cons v values ih =>
      rw [List.forall_mem_cons] at h
      rw [shownAll, renderAll, renderAll, h.1, ih h.2]

theorem render_shown (v : Value) : v.shown.render = v.render := by
  induction v using Value.induction with
  | leaf content unknown =>
      cases content with
      | none => rw [shown, Option.map_none, render, render]
      | some scalar => rw [shown, Option.map_some, render, render, scalar.render_shown]
  | aggregate values inner unknown ih =>
      rw [shown, render, render, renderAll_shownAll_of_forall ih]

theorem legible_of_valid {v : Value} (hreal : ∀ x, some (.real x) ∉ v.leaves)
    (hvalid : Validation.value v = .ok ()) : v.Legible := by
  rintro _ hmem scalar rfl
  cases scalar with
  | real x => exact (hreal x hmem).elim
  | bigNumber literal => exact Validation.value_eq_ok_iff.mp hvalid literal hmem
  | _ => exact trivial

end Value

/--
Two valid values without reals have the same text exactly when they have the same tree, apart from
unknown fields at any level, from verdicts of one ordinal that are not written by its name, and from
integers that were sent as big numbers.  So nothing in a charstring can look like anything outside
of it.
-/
theorem Value.render_eq_iff {a b : Value} (ha : ∀ x, some (.real x) ∉ a.leaves)
    (hb : ∀ x, some (.real x) ∉ b.leaves) (hvalida : Validation.value a = .ok ())
    (hvalidb : Validation.value b = .ok ()) : a.render = b.render ↔ a.shown = b.shown := by
  constructor
  · intro h
    have hreadable := readable (legible_of_valid ha hvalida) b [] [] (legible_of_valid hb hvalidb)
      stops_nil stops_nil (by rw [h])
    exact hreadable.1
  · intro h
    rw [← a.render_shown, h, render_shown]

/-- A charstring that spells the end of itself and the beginning of another one is one element. -/
theorem Value.render_eq_iff_spelled_end :
    let one := aggregate [ofScalar (.text "a\", \"b")] [] []
    let two := aggregate [ofScalar (.text "a"), ofScalar (.text "b")] [] []
    ((∀ x, some (.real x) ∉ one.leaves) ∧ Validation.value one = .ok ()) ∧
    ((∀ x, some (.real x) ∉ two.leaves) ∧ Validation.value two = .ok ()) ∧
    one.render ≠ two.render := by
  intro one two
  have hone : ∀ x, some (.real x) ∉ one.leaves := by simp [one, leaves, leavesAll, ofScalar]
  have htwo : ∀ x, some (.real x) ∉ two.leaves := by simp [two, leaves, leavesAll, ofScalar]
  have hvalid : Validation.value one = .ok () := by cbv
  have hvalid' : Validation.value two = .ok () := by cbv
  refine ⟨⟨hone, hvalid⟩, ⟨htwo, hvalid'⟩, ?_⟩
  intro h
  have hshown := (render_eq_iff hone htwo hvalid hvalid').mp h
  simp [one, two, shown, shownAll, ofScalar] at hshown

end TestWire
