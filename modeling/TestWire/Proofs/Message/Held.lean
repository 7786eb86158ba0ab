import TestWire.Proofs.Message.Relay
import TestWire.Proofs.Message.Walk

/-! # What a decoded message holds

Every part of a decoded message was paid for by bytes of its own, and a part that is replaced or
joined later gives nothing back.
-/

namespace TestWire

namespace Visit

/-- The deepest level that a visit comes by, the groups inside an unknown field included. -/
def reach : Visit → Nat
  | enter level _ => level
  | content _ => 0
  | field level _ unknown => level + unknown.nesting

def entersValue : Visit → Bool
  | enter _ s => s == .value
  | content _ | field .. => false

def isField : Visit → Bool
  | field .. => true
  | enter .. | content _ => false

def bytes : Visit → Bytes
  | enter .. => []
  | content bytes => bytes
  | field _ _ unknown => unknown.raw

/-- What visits weigh: each nested value two, each unknown field one, and all bytes. -/
def weight (visits : List Visit) : Nat :=
  2 * visits.countP entersValue + visits.countP isField + (visits.flatMap bytes).length

@[simp] theorem weight_nil : weight [] = 0 := rfl

@[simp] theorem weight_append (visits visits' : List Visit) :
    weight (visits ++ visits') = weight visits + weight visits' := by
  simp only [weight, List.countP_append, List.flatMap_append, List.length_append]
  omega

theorem weight_cons (visit : Visit) (visits : List Visit) :
    weight (visit :: visits) = weight [visit] + weight visits :=
  weight_append [visit] visits

@[simp] theorem weight_enter_value (level : Nat) (visits : List Visit) :
    weight (enter level .value :: visits) = 2 + weight visits := by
  rw [weight_cons]
  rfl

@[simp] theorem weight_enter_composite (level : Nat) (visits : List Visit) :
    weight (enter level .composite :: visits) = weight visits := by
  rw [weight_cons]
  exact Nat.zero_add _

@[simp] theorem weight_content (content : Bytes) (visits : List Visit) :
    weight (.content content :: visits) = content.length + weight visits := by
  rw [weight_cons]
  simp [weight, entersValue, isField, bytes]

@[simp] theorem weight_field (level : Nat) (s : Schema) (unknown : UnknownField)
    (visits : List Visit) :
    weight (field level s unknown :: visits) = 1 + unknown.raw.length + weight visits := by
  rw [weight_cons]
  simp [weight, entersValue, isField, bytes]

end Visit

/-! ## What each field adds -/

section

variable {left : Nat} {tag : Tag} {front payload : Bytes}

theorem Scalar.Form.length_bytes_le {scalar : Scalar} (h : Form payload scalar) :
    scalar.bytes.length ≤ payload.length := by
  cases scalar with
  | octets data => exact h.length_le
  | text content => exact h.length_le
  | bigNumber literal => exact h.length_le
  | boolean value => exact Nat.zero_le _
  | verdict v => exact Nat.zero_le _
  | real value => exact Nat.zero_le _
  | integer value => exact Nat.zero_le _

/-- A value weighs what its aggregate does, if it has one, and what its unknown fields do. -/
theorem Value.weight_composite_le (level : Nat) (v : Value) :
    Visit.weight ((v.composite?.getD {}).walk (level + 1)) +
        Visit.weight (v.unknown.map (.field level .value)) ≤ Visit.weight (v.walk level) := by
  cases v with
  | leaf content unknown => simp [composite?, walk, Composite.walk, walkAll, Value.unknown]
  | aggregate values inner unknown =>
      simp [composite?, walk_aggregate, Value.unknown]

theorem Value.weight_addUnknown (level : Nat) (v : Value) (field : UnknownField) :
    Visit.weight ((v.addUnknown field).walk level) =
      Visit.weight (v.walk level) + (1 + field.raw.length) := by
  cases v with
  | leaf content unknown => simp [addUnknown, withUnknown, walk, Value.unknown, Nat.add_assoc]
  | aggregate values inner unknown =>
      simp [addUnknown, withUnknown, walk, Value.unknown, Nat.add_assoc]

theorem Value.FieldForm.weight_le {merges : Composite → Bytes → Composite → Prop} {v v' : Value}
    (h : FieldForm left merges tag v payload v') (hfront : Tag.Spelling front tag)
    (hmerges : ∀ c body c', merges c body c' → ∀ level,
      Visit.weight (c'.walk level) ≤ Visit.weight (c.walk level) + body.length) (level : Nat) :
    Visit.weight (v'.walk level) ≤
      Visit.weight (v.walk level) + 1 * (front.length + payload.length) := by
  have hpos := hfront.length_pos
  have hheld := v.weight_composite_le level
  cases h with
  | @scalar _ scalar _ hform =>
      have hbytes := hform.length_bytes_le
      have hset : Visit.weight ((v.setScalar scalar).walk level) =
          scalar.bytes.length + Visit.weight (v.unknown.map (.field level .value)) := by
        simp [setScalar, walk]
      omega
  | @aggregate _ c _ body hprefixed hbody =>
      have hcontent := hprefixed.length_le
      have hgrown := hmerges _ _ _ hbody (level + 1)
      have hset : Visit.weight ((v.setComposite c).walk level) =
          Visit.weight (c.walk (level + 1)) +
            Visit.weight (v.unknown.map (.field level .value)) := by
        simp [setComposite, walk_aggregate]
      omega
  | @unknown _ field _ =>
      rw [weight_addUnknown]
      omega

theorem Composite.weight_push (level : Nat) (c : Composite) (v : Value) :
    Visit.weight ((c.push v).walk level) =
      Visit.weight (c.walk level) + (2 + Visit.weight (v.walk (level + 1))) := by
  simp only [push, walk, Value.walkAll_eq_flatMap, List.flatMap_append, List.flatMap_cons,
    List.flatMap_nil, List.append_nil, Visit.weight_append, Visit.weight_enter_value]
  omega

theorem Composite.weight_addUnknown (level : Nat) (c : Composite) (field : UnknownField) :
    Visit.weight ((c.addUnknown field).walk level) =
      Visit.weight (c.walk level) + (1 + field.raw.length) := by
  simp [addUnknown, walk, Nat.add_assoc]

theorem Composite.FieldForm.weight_le {merges : Value → Bytes → Value → Prop} {c c' : Composite}
    (h : FieldForm left merges tag c payload c') (hfront : Tag.Spelling front tag)
    (hmerges : ∀ v body v', merges v body v' → ∀ level,
      Visit.weight (v'.walk level) ≤ Visit.weight (v.walk level) + body.length) (level : Nat) :
    Visit.weight (c'.walk level) ≤
      Visit.weight (c.walk level) + 1 * (front.length + payload.length) := by
  have hpos := hfront.length_pos
  cases h with
  | @element _ v _ body hprefixed hbody =>
      have hcontent := hprefixed.length_lt
      have hgrown := hmerges _ _ _ hbody (level + 1)
      have hunset : Visit.weight (Value.unset.walk (level + 1)) = 0 := by
        simp [Value.unset, Value.walk]
      rw [weight_push]
      omega
  | @unknown _ field _ =>
      rw [weight_addUnknown]
      omega

theorem BitString.FieldForm.weight_le {b b' : BitString} (h : FieldForm left tag b payload b')
    (hfront : Tag.Spelling front tag) :
    Visit.weight (Message.walk (s := .bits) b') ≤
      Visit.weight (Message.walk (s := .bits) b) + 1 * (front.length + payload.length) := by
  have hpos := hfront.length_pos
  cases h with
  | @data _ _ data hprefixed =>
      have hcontent := hprefixed.length_le
      simp only [Message.walk, Visit.weight_content]
      omega
  | nbits _ _ =>
      simp only [Message.walk, Visit.weight_content]
      omega
  | @unknown _ field _ =>
      simp only [Message.walk, addUnknown, List.map_append, List.map_cons, List.map_nil,
        Visit.weight_content, Visit.weight_append, Visit.weight_field, Visit.weight_nil]
      omega

end

/-! ## What a merge adds -/

namespace Message

theorem merges_weight_le (left : Nat) :
    (∀ v input v', Value.Merges left v input v' → ∀ level,
      Visit.weight (v'.walk level) ≤ Visit.weight (v.walk level) + input.length) ∧
    ∀ c input c', Composite.Merges left c input c' → ∀ level,
      Visit.weight (c'.walk level) ≤ Visit.weight (c.walk level) + input.length := by
  apply merges_induction
  · intro left merges hmerges v input v' h level
    rw [← Nat.one_mul input.length]
    apply h.measure_le (fun v => Visit.weight (v.walk level)) _ (Nat.lt_succ_self _)
    intro tag front v payload v' hfront hform _
    apply hform.weight_le hfront
    intro c body c' hbody
    rcases hmerges c body c' hbody with ⟨_, _, hle⟩
    exact hle
  · intro left merges hmerges c input c' h level
    rw [← Nat.one_mul input.length]
    apply h.measure_le (fun c => Visit.weight (c.walk level)) _ (Nat.lt_succ_self _)
    intro tag front c payload c' hfront hform _
    apply hform.weight_le hfront
    intro v body v' hbody
    rcases hmerges v body v' hbody with ⟨_, _, hle⟩
    exact hle

theorem Merges.weight_le {s : Schema} {left : Nat} {m m' : Message s} {input : Bytes}
    (h : Merges left m input m') :
    Visit.weight m'.walk ≤ Visit.weight m.walk + input.length := by
  cases s with
  | value => exact (merges_weight_le left).1 m input m' h 0
  | composite => exact (merges_weight_le left).2 m input m' h 0
  | bits =>
      have hfields : Merged.Fields (BitString.FieldForm left) m input m' := h
      rw [← Nat.one_mul input.length]
      apply hfields.measure_le (fun b => Visit.weight (walk (s := .bits) b)) _ (Nat.lt_succ_self _)
      intro tag front b payload b' hfront hform _
      exact hform.weight_le hfront

end Message

/-! ## Levels -/

section

variable {level left : Nat}

theorem UnknownFields.reach_le {fields : UnknownFields} (h : fields.nesting ≤ left) (s : Schema) :
    ∀ visit ∈ fields.map (Visit.field level s), visit.reach ≤ level + left := by
  intro visit hvisit
  obtain ⟨field, hfield, rfl⟩ := List.mem_map.mp hvisit
  exact Nat.add_le_add_left (nesting_le_iff.mp h field hfield) level

theorem Composite.reach_le_of_forall {c : Composite}
    (h : ∀ v ∈ c.values, ∀ level left, v.levels UnknownFields.nesting ≤ left →
      ∀ visit ∈ v.walk level, visit.reach ≤ level + left)
    (hlevels : c.levels UnknownFields.nesting ≤ left) :
    ∀ visit ∈ c.walk level, visit.reach ≤ level + left := by
  rw [levels, Nat.max_le, Value.levelsAll_le_iff] at hlevels
  rw [walk, Value.walkAll_eq_flatMap]
  intro visit hvisit
  rcases List.mem_append.mp hvisit with hvalues | hown
  · obtain ⟨v, hv, hwithin⟩ := List.mem_flatMap.mp hvalues
    have hdeep := hlevels.1 v hv
    rcases List.mem_cons.mp hwithin with rfl | hinside
    · show level + 1 ≤ level + left
      omega
    · have hreach := h v hv (level + 1) (left - 1) (by omega) visit hinside
      omega
  · exact UnknownFields.reach_le hlevels.2 .composite visit hown

theorem Value.reach_le {v : Value} (hlevels : v.levels UnknownFields.nesting ≤ left) :
    ∀ visit ∈ v.walk level, visit.reach ≤ level + left := by
  induction v using Value.induction generalizing level left with
  | leaf content unknown =>
      intro visit hvisit
      rw [walk] at hvisit
      rcases List.mem_cons.mp hvisit with rfl | hown
      · exact Nat.zero_le _
      · exact UnknownFields.reach_le hlevels .value visit hown
  | aggregate values inner unknown ih =>
      rw [levels, Nat.max_le] at hlevels
      have hinner : ∀ visit ∈ (⟨values, inner⟩ : Composite).walk (level + 1),
          visit.reach ≤ level + 1 + (left - 1) := by
        apply Composite.reach_le_of_forall fun v hv _ _ hdeep => ih v hv hdeep
        show max (Value.levelsAll UnknownFields.nesting values) inner.nesting ≤ left - 1
        omega
      rw [walk_aggregate]
      intro visit hvisit
      rcases List.mem_append.mp hvisit with hheld | hown
      · rcases List.mem_cons.mp hheld with rfl | hinside
        · show level + 1 ≤ level + left
          omega
        · have hreach := hinner visit hinside
          omega
      · exact UnknownFields.reach_le hlevels.2 .value visit hown

end

namespace Message

theorem reach_le {s : Schema} {left : Nat} {m : Message s} (h : m.nesting ≤ left) :
    ∀ visit ∈ m.walk, visit.reach ≤ left := by
  rw [← Nat.zero_add left]
  cases s with
  | value => exact Value.reach_le h
  | composite => exact Composite.reach_le_of_forall (fun _ _ _ _ => Value.reach_le) h
  | bits =>
      intro visit hvisit
      rcases List.mem_cons.mp hvisit with rfl | hown
      · exact Nat.zero_le _
      · exact UnknownFields.reach_le h .bits visit hown

/--
What was decoded nests no deeper than the limit, in its messages and in the groups of its unknown
fields.  Its nested values count for two bytes of the input each, its unknown fields for one, and
all the bytes it holds for themselves; this comes to no more bytes than there were.
-/
theorem bounded_of_decode {s : Schema} {limits : DecodeLimits} {input : Bytes} {m : Message s}
    (h : decode s limits input = .ok m) :
    (∀ visit ∈ m.walk, visit.reach ≤ limits.maxDepth) ∧
    2 * m.walk.countP Visit.entersValue + m.walk.countP Visit.isField +
      (m.walk.flatMap Visit.bytes).length ≤ input.length := by
  constructor
  · exact reach_le (intact_of_decode h).1
  · have hempty : Visit.weight (empty s).walk = 0 := by cases s <;> rfl
    have hle := (decode_eq_ok_iff.mp h).2.weight_le
    rw [hempty, Nat.zero_add] at hle
    exact hle

/-- The octets that the aggregate replaces count for nothing; the group in it is at level two. -/
theorem bounded_of_decode_replaced :
    decode .value ⟨2, 16⟩ [0x0a, 1, 7, 0x42, 8, 0x0a, 4, 0x0a, 2, 1, 2, 0x4b, 0x4c] =
        .ok (Value.aggregate [.ofScalar (.octets [1, 2])] [⟨9, .startGroup, [0x4c]⟩] []) ∧
      (∀ visit ∈ Message.walk (s := .value)
          (Value.aggregate [.ofScalar (.octets [1, 2])] [⟨9, .startGroup, [0x4c]⟩] []),
        visit.reach ≤ 2) ∧
      2 * 1 + 1 + [1, 2, 0x4c].length ≤
        [0x0a, 1, 7, 0x42, 8, 0x0a, 4, 0x0a, 2, 1, 2, 0x4b, 0x4c].length := by
  have hdecode : decode .value ⟨2, 16⟩ [0x0a, 1, 7, 0x42, 8, 0x0a, 4, 0x0a, 2, 1, 2, 0x4b, 0x4c] =
      .ok (Value.aggregate [.ofScalar (.octets [1, 2])] [⟨9, .startGroup, [0x4c]⟩] []) := rfl
  exact ⟨hdecode, bounded_of_decode hdecode⟩

end Message

end TestWire
