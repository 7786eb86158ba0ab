import TestWire.Proofs.Message.Chunks

/-! # Fields that change places

Every field goes into one part of its message and leaves the others alone.  So fields can be brought
into any order that keeps the order within each part.
-/

namespace TestWire

/-! ## Lists in another order -/

/-- One list is the other in another order, which is the same order for items of the same key. -/
def Interleaves {α κ : Type} [DecidableEq κ] (key : α → κ) (xs ys : List α) : Prop :=
  ∀ k, xs.filter (fun x => key x = k) = ys.filter (fun y => key y = k)

namespace Interleaves

variable {α β κ : Type} [DecidableEq κ] {key : α → κ} {xs ys : List α}

theorem perm [DecidableEq α] (h : Interleaves key xs ys) : xs.Perm ys := by
  refine List.perm_iff_count.mpr fun a => ?_
  have hcount (zs : List α) : (zs.filter fun z => key z = key a).count a = zs.count a :=
    List.count_filter (by simp)
  rw [← hcount xs, ← hcount ys, h (key a)]

theorem map {key : β → κ} {f : α → β} (h : Interleaves (fun x => key (f x)) xs ys) :
    Interleaves key (xs.map f) (ys.map f) := by
  intro k
  simp only [List.filter_map]
  exact congrArg (List.map f) (h k)

theorem eq_nil (h : Interleaves key xs []) : xs = [] := by
  cases xs with
  | nil => rfl
  | cons x xs =>
      have hfilter := h (key x)
      simp at hfilter

/-- The item that is first in one order has only items of other keys before it in the other. -/
theorem exists_of_cons {y : α} (h : Interleaves key xs (y :: ys)) :
    ∃ before behind, xs = before ++ y :: behind ∧ (∀ x ∈ before, key x ≠ key y) ∧
      Interleaves key (before ++ behind) ys := by
  have hfirst := h (key y)
  rw [List.filter_cons_of_pos (by simp), List.filter_eq_cons_iff] at hfirst
  obtain ⟨before, behind, rfl, hbefore, _, hbehind⟩ := hfirst
  have hother : ∀ x ∈ before, key x ≠ key y := by simpa using hbefore
  refine ⟨before, behind, rfl, hother, fun k => ?_⟩
  have hsame := h k
  by_cases hk : key y = k
  · cases hk
    have hnone : before.filter (fun x => key x = key y) = [] := by simpa using hother
    rw [List.filter_append, hnone, List.nil_append]
    exact hbehind
  · rw [List.filter_append, List.filter_cons_of_neg (by simpa using hk),
      List.filter_cons_of_neg (by simpa using hk)] at hsame
    rw [List.filter_append]
    exact hsame

end Interleaves

/-! ## Slots -/

inductive Slot
  | kind
  | elements
  | data
  | nbits
  | unknown
  deriving DecidableEq, Repr

/-- The part of a message that the field of a tag goes into. -/
def Schema.slot : Schema → Tag → Slot
  | value, tag => if tag ∈ Value.kindTags then .kind else .unknown
  | composite, tag => if tag = Composite.elementTag then .elements else .unknown
  | bits, tag =>
      if tag = BitString.dataTag then
        .data
      else if tag = BitString.nbitsTag then
        .nbits
      else
        .unknown

@[simp] theorem Schema.slot_tag (c : Case) : value.slot c.tag = .kind := by
  simp [slot, Value.tag_mem_kindTags]

theorem Schema.slot_eq_unknown {s : Schema} {tag : Tag} (h : s.knows tag = false) :
    s.slot tag = .unknown := by
  cases s with
  | value =>
      have hkind : tag ∉ Value.kindTags := by simp [← Value.knows_iff_mem_kindTags, h]
      exact if_neg hkind
  | composite => exact if_neg (by simpa [knows] using h)
  | bits =>
      obtain ⟨hdata, hnbits⟩ : tag ≠ BitString.dataTag ∧ tag ≠ BitString.nbitsTag := by
        simpa [knows] using h
      simp [slot, hdata, hnbits]

/-! ## Changing places -/

namespace Merged

variable {μ : Type} {form : Tag → μ → Bytes → μ → Prop} {slot : Tag → Slot}

/-- Two fields of different slots make the same of a message in either order. -/
def Swaps (form : Tag → μ → Bytes → μ → Prop) (slot : Tag → Slot) : Prop :=
  ∀ {tag tag' : Tag} {payload payload' : Bytes} {m m' m'' : μ}, form tag m payload m' →
    form tag' m' payload' m'' → slot tag ≠ slot tag' →
      ∃ n, form tag' m payload' n ∧ form tag n payload m''

theorem Makes.move_front (hswaps : Swaps form slot) {field : UnknownField}
    {before behind : List UnknownField} {m m' : μ}
    (hbefore : ∀ other ∈ before, slot other.tag ≠ slot field.tag)
    (h : Makes form m (before ++ field :: behind) m') :
    Makes form m (field :: (before ++ behind)) m' := by
  -- The field passes the nearest of the fields before it last, so that each swap is next to it.
  induction before generalizing m with
  | nil => exact h
  | cons other before ih =>
      obtain ⟨hother, hothers⟩ := List.forall_mem_cons.mp hbefore
      cases h with
      | cons hfirst hrest =>
          have hmoved := ih hothers hrest
          cases hmoved with
          | cons hfield hrest =>
              obtain ⟨n, hfield, hfirst⟩ := hswaps hfirst hfield hother
              exact .cons hfield (.cons hfirst hrest)

/-- Fields make the same of a message in every order that keeps the order within each slot. -/
theorem Makes.interleave (hswaps : Swaps form slot) {fields fields' : List UnknownField} {m m' : μ}
    (h : Makes form m fields m')
    (hsame : Interleaves (fun field => slot field.tag) fields fields') :
    Makes form m fields' m' := by
  -- By induction on the order that is wanted: its first field is moved to the front of the other.
  induction fields' generalizing fields m with
  | nil =>
      obtain rfl := hsame.eq_nil
      exact h
  | cons field fields' ih =>
      obtain ⟨before, behind, rfl, hbefore, hrest⟩ := hsame.exists_of_cons
      have hmoved := h.move_front hswaps hbefore
      cases hmoved with
      | cons hfield hothers => exact .cons hfield (ih hothers hrest)

end Merged

theorem Value.addUnknown_setScalar (v : Value) (scalar : Scalar) (field : UnknownField) :
    (v.setScalar scalar).addUnknown field = (v.addUnknown field).setScalar scalar := by
  cases v <;> rfl

theorem Value.addUnknown_setComposite (v : Value) (c : Composite) (field : UnknownField) :
    (v.setComposite c).addUnknown field = (v.addUnknown field).setComposite c := by
  cases v <;> rfl

theorem Value.fieldForm_swaps (left : Nat) (merges : Composite → Bytes → Composite → Prop) :
    Merged.Swaps (FieldForm left merges) Schema.value.slot := by
  intro tag tag' payload payload' v v' v'' h h' hslot
  cases h with
  | scalar _ hform =>
      cases h' with
      | scalar _ _ => simp at hslot
      | aggregate _ _ _ => simp at hslot
      | unknown _ hfield =>
          rw [addUnknown_setScalar]
          exact ⟨_, .unknown v hfield, .scalar _ hform⟩
  | aggregate _ hprefixed hbody =>
      cases h' with
      | scalar _ _ => simp at hslot
      | aggregate _ _ _ => simp at hslot
      | unknown _ hfield =>
          rw [addUnknown_setComposite]
          refine ⟨_, .unknown v hfield, .aggregate _ hprefixed ?_⟩
          rwa [addUnknown, composite?_withUnknown]
  | unknown _ hfield =>
      cases h' with
      | scalar _ hform =>
          rw [← addUnknown_setScalar]
          exact ⟨_, .scalar v hform, .unknown _ hfield⟩
      | aggregate _ hprefixed hbody =>
          rw [addUnknown, composite?_withUnknown] at hbody
          rw [← addUnknown_setComposite]
          exact ⟨_, .aggregate v hprefixed hbody, .unknown _ hfield⟩
      | unknown _ hfield' =>
          simp [Schema.slot_eq_unknown hfield.unknown,
            Schema.slot_eq_unknown hfield'.unknown] at hslot

theorem Composite.fieldForm_swaps (left : Nat) (merges : Value → Bytes → Value → Prop) :
    Merged.Swaps (FieldForm left merges) Schema.composite.slot := by
  intro tag tag' payload payload' c c' c'' h h' hslot
  cases h with
  | element _ hprefixed hbody =>
      cases h' with
      | element _ _ _ => exact (hslot rfl).elim
      | unknown _ hfield => exact ⟨_, .unknown c hfield, .element _ hprefixed hbody⟩
  | unknown _ hfield =>
      cases h' with
      | element _ hprefixed hbody => exact ⟨_, .element c hprefixed hbody, .unknown _ hfield⟩
      | unknown _ hfield' =>
          simp [Schema.slot_eq_unknown hfield.unknown,
            Schema.slot_eq_unknown hfield'.unknown] at hslot

theorem BitString.fieldForm_swaps (left : Nat) :
    Merged.Swaps (FieldForm left) Schema.bits.slot := by
  intro tag tag' payload payload' b b' b'' h h' hslot
  cases h with
  | data _ hprefixed =>
      cases h' with
      | data _ _ => exact (hslot rfl).elim
      | nbits _ hword => exact ⟨_, .nbits b hword, .data _ hprefixed⟩
      | unknown _ hfield => exact ⟨_, .unknown b hfield, .data _ hprefixed⟩
  | nbits _ hword =>
      cases h' with
      | data _ hprefixed => exact ⟨_, .data b hprefixed, .nbits _ hword⟩
      | nbits _ _ => exact (hslot rfl).elim
      | unknown _ hfield => exact ⟨_, .unknown b hfield, .nbits _ hword⟩
  | unknown _ hfield =>
      cases h' with
      | data _ hprefixed => exact ⟨_, .data b hprefixed, .unknown _ hfield⟩
      | nbits _ hword => exact ⟨_, .nbits b hword, .unknown _ hfield⟩
      | unknown _ hfield' =>
          simp [Schema.slot_eq_unknown hfield.unknown,
            Schema.slot_eq_unknown hfield'.unknown] at hslot

namespace Message

variable {s : Schema}

theorem fieldForm_swaps (s : Schema) (left : Nat) :
    Merged.Swaps (FieldForm left (s := s)) s.slot := by
  cases s with
  | value => cases left <;> exact Value.fieldForm_swaps _ _
  | composite => cases left <;> exact Composite.fieldForm_swaps _ _
  | bits => exact BitString.fieldForm_swaps left

theorem Merges.interleave {left : Nat} {chunks chunks' : List Chunk} {m m' : Message s}
    (h : Merges left m (Chunk.join chunks) m')
    (hsame : Interleaves (fun chunk => s.slot chunk.field.tag) chunks chunks') :
    Merges left m (Chunk.join chunks') m' := by
  rw [merges_join_iff] at h ⊢
  exact h.interleave (fieldForm_swaps s left) (Interleaves.map hsame)

/-- Chunks decode together exactly when each of them decodes on its own. -/
theorem exists_decode_join_iff {limits : DecodeLimits} {chunks : List Chunk}
    (hsize : (Chunk.join chunks).length ≤ limits.maxSize) :
    (∃ m, decode s limits (Chunk.join chunks) = .ok m) ↔
      ∀ chunk ∈ chunks, ∃ m, decode s limits chunk.bytes = .ok m := by
  have hsizes : ∀ chunk ∈ chunks, chunk.bytes.length ≤ limits.maxSize :=
    fun _ hmem => Nat.le_trans (Chunk.length_bytes_le hmem) hsize
  simp only [decode_bytes_eq_ok_iff]
  simp only [decode_eq_ok_iff, hsize, true_and, merges_join_iff]
  rw [Merged.exists_makes_iff (fun hfield n => hfield.transfer n) (empty s), List.forall_mem_map]
  refine forall₂_congr fun chunk hmem => ?_
  simp only [hsizes chunk hmem, true_and]

/--
Chunks decode together exactly when each of them decodes on its own.  They decode to the same
message in every order that keeps the order within each slot.
-/
theorem decode_join {limits : DecodeLimits} {chunks : List Chunk}
    (hsize : (Chunk.join chunks).length ≤ limits.maxSize) :
    ((∃ m, decode s limits (Chunk.join chunks) = .ok m) ↔
      ∀ chunk ∈ chunks, ∃ m, decode s limits chunk.bytes = .ok m) ∧
    ∀ m, decode s limits (Chunk.join chunks) = .ok m → ∀ chunks' : List Chunk,
      Interleaves (fun chunk => s.slot chunk.field.tag) chunks chunks' →
        decode s limits (Chunk.join chunks') = .ok m := by
  refine ⟨exists_decode_join_iff hsize, ?_⟩
  intro m h chunks' hsame
  -- The other order has the same chunks, and so it fits the limits as well.
  have hlength : (Chunk.join chunks').length = (Chunk.join chunks).length := by
    classical
    exact ((hsame.perm.flatMap_right Chunk.bytes).length_eq).symm
  rw [decode_eq_ok_iff] at h ⊢
  exact ⟨by omega, h.2.interleave hsame⟩

def shortChunk (field : UnknownField) (hvalid : field.tag.Valid) (hform : field.WellFormed) :
    Chunk where
  front := field.tag.encode
  field := field
  spelled := Tag.spelling_encode hvalid
  delimited := hform

/--
An unknown field can stand between two aggregates that are joined, or before both.  A text that is
no UTF-8 is refused although the integer behind it would replace it.
-/
theorem decode_join_shuffled :
    ∃ first second noted text number : Chunk,
      first.bytes = [0x42, 2, 0x0a, 0] ∧ second.bytes = [0x42, 2, 0x48, 7] ∧
      noted.bytes = [0x48, 5] ∧ text.bytes = [0x22, 1, 0xff] ∧ number.bytes = [0x30, 1] ∧
      decode .value ⟨2, 10⟩ (Chunk.join [first, noted, second]) =
        .ok (Value.aggregate [.unset] [⟨9, .varint, [7]⟩] [⟨9, .varint, [5]⟩]) ∧
      decode .value ⟨2, 10⟩ (Chunk.join [noted, first, second]) =
        .ok (Value.aggregate [.unset] [⟨9, .varint, [7]⟩] [⟨9, .varint, [5]⟩]) ∧
      ¬ ∃ m, decode .value ⟨2, 10⟩ (Chunk.join [text, number]) = .ok m := by
  have hbody (number : UInt32) (content : Bytes) (h : content.length < 2 ^ 64) :
      (UnknownField.lengthDelimited number content).WellFormed :=
    ⟨0, .lengthDelimited (Varint.prefixed_encodePrefixed h)⟩
  have hword (number : UInt32) (value : UInt64) : (UnknownField.varint number value).WellFormed :=
    ⟨0, .varint (Varint.spelling_encode value)⟩
  let first := shortChunk (.lengthDelimited 8 [0x0a, 0]) (by decide) (hbody _ _ (by decide))
  let second := shortChunk (.lengthDelimited 8 [0x48, 7]) (by decide) (hbody _ _ (by decide))
  let noted := shortChunk (.varint 9 5) (by decide) (hword _ _)
  let text := shortChunk (.lengthDelimited 4 [0xff]) (by decide) (hbody _ _ (by decide))
  let number := shortChunk (.varint 6 1) (by decide) (hword _ _)
  have hjoined : decode .value ⟨2, 10⟩ (Chunk.join [first, noted, second]) =
      .ok (Value.aggregate [.unset] [⟨9, .varint, [7]⟩] [⟨9, .varint, [5]⟩]) := rfl
  have hsame : Interleaves (fun chunk => Schema.value.slot chunk.field.tag) [first, noted, second]
      [noted, first, second] := by
    intro slot
    cases slot <;> rfl
  have hlength : (Chunk.join [first, noted, second]).length = 10 := rfl
  have hlength' : (Chunk.join [text, number]).length ≤ 10 := by
    rw [show (Chunk.join [text, number]).length = 5 from rfl]
    decide
  refine ⟨first, second, noted, text, number, rfl, rfl, rfl, rfl, rfl, hjoined, ?_, ?_⟩
  · exact (decode_join (Nat.le_of_eq hlength)).2 _ hjoined _ hsame
  · rw [(decode_join hlength').1]
    intro h
    obtain ⟨m, hdecode⟩ := h text (by simp)
    have hfails : decode .value ⟨2, 10⟩ text.bytes = .error (.invalidUtf8 "string_value") := rfl
    rw [hfails] at hdecode
    cases hdecode

end Message

end TestWire
