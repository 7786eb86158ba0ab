import Mathlib.Logic.Relation
import TestWire.Proofs.Message.Additions
import TestWire.Proofs.Message.FieldRow
import TestWire.Proofs.Message.FrameStream
import TestWire.Proofs.Message.Relay

/-! # The unknown fields there are

Nothing checks the bytes of an unknown field when it is written.  They are right because of where
fields come from: `Call` is what a program can do with them at one time, and `Reachable` where that
leads it.
-/

namespace TestWire

/-- The fields that are built from a value; the length of a payload is a word. -/
inductive UnknownField.Built : UnknownField → Prop
  | varint (number : UInt32) (value : UInt64) : Built (.varint number value)
  | fixed64 (number : UInt32) (value : UInt64) : Built (.fixed64 number value)
  | fixed32 (number : UInt32) (value : UInt32) : Built (.fixed32 number value)
  | lengthDelimited (number : UInt32) {payload : Bytes} (hsize : payload.length < 2 ^ 64) :
      Built (.lengthDelimited number payload)

/-- What a program holds, as far as unknown fields are in it. -/
inductive Held
  | field (field : UnknownField)
  | fields (fields : UnknownFields)
  | message {s : Schema} (m : Message s)

def Held.unknown : Held → List UnknownField
  | .field single => [single]
  | .fields row => row
  | .message m => m.everyUnknown.map Prod.snd

/-- What one call makes.  To change a part in place is to take it out, change it and put it back. -/
inductive Call (held : List Held) : Held → Prop
  | noFields : Call held (.fields [])
  | collect {fields : UnknownFields} (hfields : ∀ field ∈ fields, .field field ∈ held) :
      Call held (.fields fields)
  | push {fields : UnknownFields} {field : UnknownField} (hfields : .fields fields ∈ held)
      (hfield : .field field ∈ held) : Call held (.fields (fields ++ [field]))
  | extend {fields more : UnknownFields} (hfields : .fields fields ∈ held)
      (hmore : ∀ field ∈ more, .field field ∈ held) : Call held (.fields (fields ++ more))
  | pick {fields : UnknownFields} {field : UnknownField} (hfields : .fields fields ∈ held)
      (hfield : field ∈ fields) : Call held (.field field)
  | empty (s : Schema) : Call held (.message (Message.empty s))
  | decode {s : Schema} {limits : DecodeLimits} {input : Bytes} {m : Message s}
      (hdecode : Message.decode s limits input = .ok m) : Call held (.message m)
  | frame {s : Schema} {limits : DecodeLimits} {input rest : Bytes} {m : Message s}
      (hread : Frame.read s limits input = .ok m rest) : Call held (.message m)
  /-- Whether it succeeds or not, a merge leaves a message. -/
  | merge {s : Schema} {m : Message s} (limits : DecodeLimits) (input : Bytes)
      (hm : .message m ∈ held) : Call held (.message (Message.merge limits m input).message)
  | unknown {s : Schema} {m : Message s} (hm : .message m ∈ held) : Call held (.fields m.unknown)
  | setUnknown {s : Schema} {m : Message s} {fields : UnknownFields} (hm : .message m ∈ held)
      (hfields : .fields fields ∈ held) : Call held (.message (m.withUnknown fields))
  | setKind {v : Value} {kind : Option Kind} (hv : .message (s := .value) v ∈ held)
      (hkind : ∀ c, kind = some (.aggregate c) → .message (s := .composite) c ∈ held) :
      Call held (.message (s := .value) (v.withKind kind))
  | composite {v : Value} {c : Composite} (hv : .message (s := .value) v ∈ held)
      (hc : v.composite? = some c) : Call held (.message (s := .composite) c)
  | setValues {c : Composite} {values : List Value} (hc : .message (s := .composite) c ∈ held)
      (hvalues : ∀ v ∈ values, .message (s := .value) v ∈ held) :
      Call held (.message (s := .composite) ({ c with values := values } : Composite))
  | element {c : Composite} {v : Value} (hc : .message (s := .composite) c ∈ held)
      (hv : v ∈ c.values) : Call held (.message (s := .value) v)
  | setBits {b : BitString} (data : Bytes) (nbits : Int32)
      (hb : .message (s := .bits) b ∈ held) :
      Call held (.message (s := .bits) ({ b with data := data, nbits := nbits } : BitString))

/-- A program with what it holds, and the fields that it has built so far. -/
structure Holder where
  held : List Held
  built : List UnknownField

/-- After each call a program drops some of what it holds, moves the rest on, or copies it. -/
inductive Holder.Step : Holder → Holder → Prop
  | build {holder : Holder} {field : UnknownField} {kept : List Held} (hbuilt : field.Built)
      (hkept : kept ⊆ .field field :: holder.held) :
      Step holder ⟨kept, field :: holder.built⟩
  | call {holder : Holder} {made : Held} {kept : List Held} (hcall : Call holder.held made)
      (hkept : kept ⊆ made :: holder.held) : Step holder ⟨kept, holder.built⟩

def Holder.Reachable (holder : Holder) : Prop :=
  Relation.ReflTransGen Holder.Step ⟨[], []⟩ holder

/-! ## What is in what is held -/

theorem Held.mem_unknown_message_iff {s : Schema} {m : Message s} {field : UnknownField} :
    field ∈ (message m).unknown ↔ ∃ keeper, (keeper, field) ∈ m.everyUnknown := by
  simp [unknown]

theorem Held.exists_of_message {held : List Held} {s : Schema} {m : Message s}
    (hm : message m ∈ held) {keeper : Schema} {field : UnknownField}
    (hkept : (keeper, field) ∈ m.everyUnknown) : ∃ thing ∈ held, field ∈ thing.unknown :=
  ⟨message m, hm, mem_unknown_message_iff.mpr ⟨keeper, hkept⟩⟩

section

variable {held : Schema × UnknownField}

theorem Value.mem_everyUnknown_iff {v : Value} :
    held ∈ v.everyUnknown ↔
      (∃ c, v.composite? = some c ∧ held ∈ c.everyUnknown) ∨
        ∃ field ∈ v.unknown, (.value, field) = held := by
  rw [everyUnknown_eq, List.mem_append, List.mem_map]
  cases v.composite? with
  | none => simp [Composite.everyUnknown, everyUnknownAll]
  | some c => simp

theorem Composite.mem_everyUnknown_iff {c : Composite} :
    held ∈ c.everyUnknown ↔
      (∃ v ∈ c.values, held ∈ v.everyUnknown) ∨
        ∃ field ∈ c.unknown, (.composite, field) = held := by
  rw [everyUnknown, Value.everyUnknownAll_eq_flatMap, List.mem_append, List.mem_flatMap,
    List.mem_map]

theorem Value.composite?_withKind {v : Value} {kind : Option Kind} {c : Composite} :
    (v.withKind kind).composite? = some c ↔ kind = some (.aggregate c) := by
  rcases kind with _ | scalar | composite
  · simp [withKind, make, composite?]
  · simp [withKind, make, composite?]
  · simp [withKind, make, composite?]

end

namespace Message

variable {s : Schema} {m : Message s} {field : UnknownField}

theorem mem_everyUnknown_of_mem_unknown (h : field ∈ m.unknown) :
    (s, field) ∈ m.everyUnknown := by
  cases s with
  | value => exact Value.mem_everyUnknown_iff.mpr (.inr ⟨field, h, rfl⟩)
  | composite => exact Composite.mem_everyUnknown_iff.mpr (.inr ⟨field, h, rfl⟩)
  | bits => exact List.mem_map_of_mem h

theorem mem_everyUnknown_of_withUnknown {fields : UnknownFields} {held : Schema × UnknownField}
    (h : held ∈ (m.withUnknown fields).everyUnknown) :
    held ∈ m.everyUnknown ∨ held.2 ∈ fields := by
  cases s with
  | value =>
      rcases Value.mem_everyUnknown_iff.mp h with ⟨c, hc, hheld⟩ | ⟨field, hfield, rfl⟩
      · rw [withUnknown, Value.composite?_withUnknown] at hc
        exact .inl (Value.mem_everyUnknown_iff.mpr (.inl ⟨c, hc, hheld⟩))
      · rw [withUnknown, Value.unknown_withUnknown] at hfield
        exact .inr hfield
  | composite =>
      rcases Composite.mem_everyUnknown_iff.mp h with hheld | ⟨field, hfield, rfl⟩
      · exact .inl (Composite.mem_everyUnknown_iff.mpr (.inl hheld))
      · exact .inr hfield
  | bits =>
      rcases List.mem_map.mp h with ⟨field, hfield, rfl⟩
      exact .inr hfield

end Message

/-! ## What is read -/

/-- A field that some message takes for an unknown one when it reads it. -/
structure UnknownField.Readable (field : UnknownField) : Prop where
  wellFormed : field.WellFormed
  valid : field.tag.Valid

namespace UnknownField

variable {field : UnknownField}

theorem WellFormed.wireType_ne_endGroup (h : field.WellFormed) : field.wireType ≠ .endGroup := by
  rcases h with ⟨depth, hform⟩
  exact hform.wireType_ne_endGroup

/-- Only the end tag of a group can have the number zero. -/
theorem Readable.number_mem (h : field.Readable) :
    1 ≤ field.number.toNat ∧ field.number.toNat ≤ Limits.maxFieldNumber := by
  have hzero : field.number ≠ 0 := fun hzero =>
    h.wellFormed.wireType_ne_endGroup (h.valid.2 hzero)
  have hnat : field.number.toNat ≠ 0 := fun hnat => hzero (UInt32.toNat_inj.mp hnat)
  exact ⟨Nat.pos_of_ne_zero hnat, h.valid.1⟩

end UnknownField

theorem Schema.Foreign.readable {s : Schema} {field : UnknownField} (h : s.Foreign field) :
    field.Readable :=
  ⟨h.wellFormed, h.valid⟩

theorem Message.readable_of_decode {s : Schema} {limits : DecodeLimits} {m : Message s}
    {input : Bytes} (hdecode : decode s limits input = .ok m) :
    ∀ held ∈ m.everyUnknown, held.2.Readable := by
  intro held hheld
  exact ((intact_of_decode hdecode).2 held hheld).readable

/-! ## Calls -/

/-- A call makes nothing of other fields than those there are and those it reads. -/
theorem Call.unknown_of {held : List Held} {made : Held} (h : Call held made)
    {field : UnknownField} (hfield : field ∈ made.unknown) :
    (∃ thing ∈ held, field ∈ thing.unknown) ∨ field.Readable := by
  cases h with
  | noFields => cases hfield
  | collect hfields => exact .inl ⟨_, hfields field hfield, List.mem_singleton_self field⟩
  | push hfields hlast =>
      rcases List.mem_append.mp hfield with hold | hnew
      · exact .inl ⟨_, hfields, hold⟩
      · exact .inl ⟨_, hlast, hnew⟩
  | extend hfields hmore =>
      rcases List.mem_append.mp hfield with hold | hnew
      · exact .inl ⟨_, hfields, hold⟩
      · exact .inl ⟨_, hmore field hnew, List.mem_singleton_self field⟩
  | pick hfields hmem =>
      rw [List.mem_singleton.mp hfield]
      exact .inl ⟨_, hfields, hmem⟩
  | empty s => cases s <;> cases hfield
  | decode hdecode =>
      rcases Held.mem_unknown_message_iff.mp hfield with ⟨keeper, hkept⟩
      exact .inr (Message.readable_of_decode hdecode _ hkept)
  | frame hread =>
      rcases Held.mem_unknown_message_iff.mp hfield with ⟨keeper, hkept⟩
      rcases (Frame.read_reads _ _ _).mp hread with ⟨_, _, body, _, hdecode⟩
      exact .inr (Message.readable_of_decode hdecode _ hkept)
  | @merge s m limits input hm =>
      rcases Held.mem_unknown_message_iff.mp hfield with ⟨keeper, hkept⟩
      rcases (Message.merge_addsForeign limits m input).mem hkept with hbefore | hforeign
      · exact .inl (Held.exists_of_message hm hbefore)
      · exact .inr hforeign.readable
  | @unknown s m hm =>
      have hkept := Message.mem_everyUnknown_of_mem_unknown hfield
      exact .inl (Held.exists_of_message hm hkept)
  | setUnknown hm hfields =>
      rcases Held.mem_unknown_message_iff.mp hfield with ⟨keeper, hkept⟩
      rcases Message.mem_everyUnknown_of_withUnknown hkept with hbefore | hnew
      · exact .inl (Held.exists_of_message hm hbefore)
      · exact .inl ⟨_, hfields, hnew⟩
  | @setKind v kind hv hkind =>
      rcases Held.mem_unknown_message_iff.mp hfield with ⟨keeper, hkept⟩
      rcases Value.mem_everyUnknown_iff.mp hkept with ⟨c, hc, hbelow⟩ | ⟨own, hown, hsame⟩
      -- What stands below comes with the new kind, the value only keeps its own fields.
      · have hheld := hkind c (Value.composite?_withKind.mp hc)
        exact .inl (Held.exists_of_message hheld hbelow)
      · rw [Value.unknown_withKind] at hown
        have hbefore := Value.mem_everyUnknown_iff.mpr (.inr ⟨own, hown, hsame⟩)
        exact .inl (Held.exists_of_message hv hbefore)
  | @composite v c hv hc =>
      rcases Held.mem_unknown_message_iff.mp hfield with ⟨keeper, hkept⟩
      have habove := Value.mem_everyUnknown_iff.mpr (.inl ⟨c, hc, hkept⟩)
      exact .inl (Held.exists_of_message hv habove)
  | @setValues c values hc hvalues =>
      rcases Held.mem_unknown_message_iff.mp hfield with ⟨keeper, hkept⟩
      rcases Composite.mem_everyUnknown_iff.mp hkept with ⟨v, hv, hbelow⟩ | hown
      · exact .inl (Held.exists_of_message (hvalues v hv) hbelow)
      · have hbefore : (keeper, field) ∈ c.everyUnknown :=
          Composite.mem_everyUnknown_iff.mpr (.inr hown)
        exact .inl (Held.exists_of_message hc hbefore)
  | @element c v hc hv =>
      rcases Held.mem_unknown_message_iff.mp hfield with ⟨keeper, hkept⟩
      have habove := Composite.mem_everyUnknown_iff.mpr (.inl ⟨v, hv, hkept⟩)
      exact .inl (Held.exists_of_message hc habove)
  | setBits data nbits hb => exact .inl ⟨_, hb, hfield⟩

/-! ## What is reached -/

/-- What was built comes from a value, and what is held was built or read. -/
structure Holder.Sound (holder : Holder) : Prop where
  built : ∀ field ∈ holder.built, field.Built
  origin : ∀ thing ∈ holder.held, ∀ field ∈ thing.unknown,
    field ∈ holder.built ∨ field.Readable

theorem UnknownField.Built.wellFormed {field : UnknownField} (h : field.Built) :
    field.WellFormed := by
  cases h with
  | varint number value => exact ⟨0, .varint (Varint.spelling_encode value)⟩
  | fixed64 number value => exact ⟨0, .fixed64 (by simp [UnknownField.fixed64])⟩
  | fixed32 number value => exact ⟨0, .fixed32 (by simp [UnknownField.fixed32])⟩
  | lengthDelimited number hsize =>
      exact ⟨0, .lengthDelimited (Varint.prefixed_encodePrefixed hsize)⟩

namespace Holder

variable {holder next : Holder}

theorem Sound.wellFormed (h : holder.Sound) {thing : Held} (hthing : thing ∈ holder.held)
    {field : UnknownField} (hfield : field ∈ thing.unknown) : field.WellFormed := by
  rcases h.origin thing hthing field hfield with hbuilt | hread
  · exact (h.built field hbuilt).wellFormed
  · exact hread.wellFormed

theorem Sound.build (h : holder.Sound) {field : UnknownField} {kept : List Held}
    (hbuilt : field.Built) (hkept : kept ⊆ .field field :: holder.held) :
    Sound ⟨kept, field :: holder.built⟩ := by
  refine ⟨List.forall_mem_cons.mpr ⟨hbuilt, h.built⟩, fun thing hthing other hother => ?_⟩
  rcases List.mem_cons.mp (hkept hthing) with rfl | hold
  · exact .inl (List.mem_cons.mpr (.inl (List.mem_singleton.mp hother)))
  · exact (h.origin thing hold other hother).imp_left (List.mem_cons_of_mem _)

theorem Sound.call (h : holder.Sound) {made : Held} {kept : List Held}
    (hcall : Call holder.held made) (hkept : kept ⊆ made :: holder.held) :
    Sound ⟨kept, holder.built⟩ := by
  refine ⟨h.built, fun thing hthing field hfield => ?_⟩
  rcases List.mem_cons.mp (hkept hthing) with rfl | hold
  · rcases hcall.unknown_of hfield with ⟨source, hsource, hthere⟩ | hread
    · exact h.origin source hsource field hthere
    · exact .inr hread
  · exact h.origin thing hold field hfield

theorem Sound.step (h : holder.Sound) (hstep : holder.Step next) : next.Sound := by
  cases hstep with
  | build hbuilt hkept => exact h.build hbuilt hkept
  | call hcall hkept => exact h.call hcall hkept

theorem Reachable.sound (h : holder.Reachable) : holder.Sound := by
  induction h with
  | refl => exact ⟨by simp, by simp⟩
  | tail _ hstep ih => exact ih.step hstep

end Holder

/-! ## One payload, as it has to be -/

/-- The bytes that may stand behind a tag of this number, for each wire type. -/
def Payload.Exact (number : UInt32) (raw : Bytes) : WireType → Prop
  | .varint => ∃ value, Varint.Spelling Limits.maxVarintBytes raw value
  | .fixed64 => raw.length = 8
  | .fixed32 => raw.length = 4
  | .lengthDelimited => ∃ content, Varint.Prefixed raw content
  | .startGroup => ∃ fields body close, raw = body ++ close ∧
      FieldRow.Spells body ⟨fields, []⟩ ∧ Tag.Spelling close ⟨number, .endGroup⟩
  | .endGroup => False

/-- A group is a row of fields, and behind them the end tag of its own number. -/
theorem Payload.Form.exact {tag : Tag} {raw : Bytes} {depth : Nat} (h : Form tag raw depth) :
    Exact tag.number raw tag.wireType := by
  induction h with
  | varint hraw => exact ⟨_, hraw⟩
  | fixed64 hraw => simpa only [Exact] using hraw
  | fixed32 hraw => simpa only [Exact] using hraw
  | lengthDelimited hraw => exact ⟨_, hraw⟩
  | @groupEnd number raw hraw => exact ⟨[], [], raw, rfl, .nil [], hraw⟩
  | @groupField number tag front payload rest depth depth' hfront hpayload _ _ ih =>
      rcases ih with ⟨fields, body, close, rfl, hbody, hclose⟩
      let field : UnknownField := ⟨tag.number, tag.wireType, payload⟩
      have hform : field.WellFormed := ⟨depth, hpayload⟩
      have hspells : FieldRow.Spells (front ++ (field.raw ++ body)) ⟨field :: fields, []⟩ :=
        .cons hfront hform hbody
      exact ⟨field :: fields, front ++ (payload ++ body), close, by simp, hspells, hclose⟩

namespace UnknownField

variable {field : UnknownField}

theorem WellFormed.exact (h : field.WellFormed) :
    Payload.Exact field.number field.raw field.wireType := by
  rcases h with ⟨depth, hform⟩
  exact hform.exact

theorem WellFormed.read_append (h : field.WellFormed) {max left : Nat}
    (hnesting : field.nesting ≤ left) (rest : Bytes) :
    UnknownField.read max left field.tag (field.raw ++ rest) = .ok field rest :=
  (read_reads max left field.tag).ok_append ⟨rfl, rfl, h, hnesting⟩ rest

theorem varint_encode_append (field : UnknownField) (context : String) (rest : Bytes) :
    Reader.varint context (field.encode ++ rest) = .ok field.tag.raw (field.raw ++ rest) := by
  rw [encode, List.append_assoc]
  exact (Reader.varint_reads context).ok_append (Varint.spelling_encode field.tag.raw) _

end UnknownField

namespace Holder

/--
Whatever a program has done, each unknown field that it holds is one payload of its wire type, which
is never the end of a group, behind its tag; its payload is what stands behind the length, if it has
one.  Written, it takes as many bytes as its size says, and of these and whatever follows them its
own are read back.  Fields that the program has not built have numbers that fields may have, and so
do all those that a merge adds to a message, whether it succeeds or not.
-/
theorem unknown_well_formed {holder : Holder} (h : holder.Reachable) :
    (∀ thing ∈ holder.held, ∀ field ∈ thing.unknown,
      field.wireType ≠ .endGroup ∧
      Payload.Exact field.number field.raw field.wireType ∧
      (if field.wireType = .lengthDelimited then Varint.Prefixed field.raw field.payload
        else field.payload = field.raw) ∧
      (∀ writer : Writer, (writer.unknownField field).toBytes = writer.toBytes ++ field.encode) ∧
      field.encode.length = field.size ∧
      (∀ context rest, Reader.varint context (field.encode ++ rest) =
        .ok field.tag.raw (field.raw ++ rest)) ∧
      (∀ max left rest, field.nesting ≤ left →
        UnknownField.read max left field.tag (field.raw ++ rest) = .ok field rest) ∧
      (field ∈ holder.built ∧ field.Built ∨
        1 ≤ field.number.toNat ∧ field.number.toNat ≤ Limits.maxFieldNumber ∧
          ∀ rest, Tag.read (field.encode ++ rest) = .ok (some field.tag) (field.raw ++ rest))) ∧
    (∀ (s : Schema) (m : Message s) limits input,
      ∃ added, (∀ held ∈ added,
          1 ≤ held.2.number.toNat ∧ held.2.number.toNat ≤ Limits.maxFieldNumber) ∧
        (Message.merge limits m input).message.everyUnknown.Subperm (m.everyUnknown ++ added)) ∧
    ∀ (s : Schema) (m : Message s) limits input, Message.decode s limits input = .ok m →
      ∀ held ∈ m.everyUnknown,
        1 ≤ held.2.number.toNat ∧ held.2.number.toNat ≤ Limits.maxFieldNumber := by
  refine ⟨?_, ?_, ?_⟩
  · intro thing hthing field hfield
    have hform := h.sound.wellFormed hthing hfield
    refine ⟨hform.wireType_ne_endGroup, hform.exact, hform.payload,
      fun writer => Writer.toBytes_unknownField writer field, UnknownField.length_encode field,
      field.varint_encode_append, fun max left rest hnesting => hform.read_append hnesting rest, ?_⟩
    rcases h.sound.origin thing hthing field hfield with hbuilt | hread
    · exact .inl ⟨hbuilt, h.sound.built field hbuilt⟩
    · refine .inr ⟨hread.number_mem.1, hread.number_mem.2, fun rest => ?_⟩
      rw [UnknownField.encode, List.append_assoc]
      exact (Tag.spelling_encode hread.valid).read_append _
  · intro s m limits input
    rcases Message.merge_addsForeign limits m input with ⟨added, hforeign, hmerged⟩
    exact ⟨added, fun held hheld => (hforeign held hheld).readable.number_mem, hmerged⟩
  · intro s m limits input hdecode held hheld
    exact (Message.readable_of_decode hdecode held hheld).number_mem

/-- A field that no message reads is put into one, which then takes a group before a merge fails. -/
theorem unknown_well_formed_merged :
    let field : UnknownField := .lengthDelimited 0 [7]
    let group : UnknownField := ⟨9, .startGroup, [0x4c]⟩
    let merged : BitString := { unknown := [field, group] }
    Reachable ⟨[.message (s := .bits) merged], [field]⟩ ∧
    Payload.Exact 9 group.raw .startGroup ∧ Varint.Prefixed field.raw field.payload ∧
    1 ≤ group.number.toNat := by
  intro field group merged
  let b : BitString := { unknown := [field] }
  let fresh : Held := .message (Message.empty .bits)
  have hbuild : Step ⟨[], []⟩ ⟨[.field field], [field]⟩ :=
    .build (.lengthDelimited 0 (by decide)) (List.Subset.refl _)
  have hcollect : Step ⟨[.field field], [field]⟩ ⟨[.fields [field]], [field]⟩ := by
    have hcall : Call [.field field] (.fields [field]) := .collect (by simp)
    exact .call hcall (by simp)
  have hempty : Step ⟨[.fields [field]], [field]⟩ ⟨[fresh, .fields [field]], [field]⟩ :=
    .call (.empty .bits) (List.Subset.refl _)
  have hset : Step ⟨[fresh, .fields [field]], [field]⟩ ⟨[.message (s := .bits) b], [field]⟩ := by
    have hcall : Call [fresh, .fields [field]] (.message (s := .bits) b) :=
      .setUnknown (s := .bits) (List.mem_cons_self ..)
        (List.mem_cons_of_mem _ (List.mem_singleton_self _))
    exact .call hcall (by simp)
  have hmerge : Step ⟨[.message (s := .bits) b], [field]⟩
      ⟨[.message (s := .bits) merged], [field]⟩ := by
    have hresult :
        (Message.merge (s := .bits) ⟨9, 9⟩ b [0x4b, 0x4c, 0x0a, 5]).message = merged := by
      decide
    have hcall : Call [.message (s := .bits) b] (.message (s := .bits) merged) := by
      rw [← hresult]
      exact .merge ⟨9, 9⟩ _ (List.mem_singleton_self _)
    exact .call hcall (by simp)
  have hreachable : Reachable ⟨[.message (s := .bits) merged], [field]⟩ :=
    ((((Relation.ReflTransGen.single hbuild).tail hcollect).tail hempty).tail hset).tail hmerge
  rcases unknown_well_formed hreachable with ⟨hall, _, _⟩
  have hthere := hall _ (List.mem_singleton_self _)
  have hgroup : group ∈ (Held.message (s := .bits) merged).unknown := by decide
  have hfield : field ∈ (Held.message (s := .bits) merged).unknown := by decide
  rcases hthere group hgroup with ⟨_, hexact, _, _, _, _, _, horigin⟩
  rcases hthere field hfield with ⟨_, _, hpayload, _⟩
  refine ⟨hreachable, hexact, hpayload, ?_⟩
  rcases horigin with ⟨hbuilt, _⟩ | ⟨hpos, _⟩
  · exact absurd hbuilt (by decide)
  · exact hpos

end Holder

end TestWire
