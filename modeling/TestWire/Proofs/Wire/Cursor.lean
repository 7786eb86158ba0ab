import TestWire.Double
import TestWire.Proofs.Wire.Base128
import TestWire.Proofs.Wire.Unread

/-! # Readers by position

A cursor is a position in a buffer.  An operation moves it, also when it fails, and the next one
goes on from there.
-/

namespace TestWire

namespace Reader

variable {α β : Type}

/-- What a read gives, wherever it stops. -/
def answer : EStateM.Result DecodeError Bytes α → Except DecodeError α
  | .ok a _ => .ok a
  | .error error _ => .error error

/-- A read that succeeds has looked at none of the bytes behind those that it takes. -/
def Local (read : Reader α) : Prop :=
  ∀ input a rest, read input = .ok a rest →
    ∃ taken, input = taken ++ rest ∧ ∀ other, read (taken ++ other) = .ok a other

/-- What a caller can ask of a reader, with the context that an error is to name. -/
inductive Operation : Type → Type 1
  | byte (context : String) : Operation UInt8
  | bytes (n : Nat) (context : String) : Operation Bytes
  | varint (context : String) : Operation UInt64
  | int32 (context : String) : Operation Int32
  | fixed64 (context : String) : Operation UInt64
  | fixed32 (context : String) : Operation UInt32
  | real (context : String) : Operation Double
  | prefixed (field : String) : Operation Bytes
  | text (field : String) : Operation String
  | tag : Operation (Option Tag)
  | skip (max left : Nat) (tag : Tag) : Operation Unit
  | unknownField (max left : Nat) (tag : Tag) : Operation UnknownField

namespace Operation

def run : Operation α → Reader α
  | byte context => Reader.byte context
  | bytes n context => Reader.bytes n context
  | varint context => Reader.varint context
  | int32 context => Reader.int32 context
  | fixed64 context => Reader.fixed64 context
  | fixed32 context => Reader.fixed32 context
  | real context => Double.mk <$> Reader.fixed64 context
  | prefixed field => Reader.prefixed field
  | text field => Reader.text field
  | tag => Tag.read
  | skip max left next => Payload.skip max left next
  | unknownField max left next => UnknownField.read max left next

def IsFixed : Operation α → Prop
  | byte _ | bytes _ _ | fixed64 _ | fixed32 _ | real _ => True
  | _ => False

end Operation

/-! ## Reads that fail -/

theorem Operation.keepsPlace_of_isFixed {op : Operation α} (h : op.IsFixed) :
    op.run.KeepsPlace := by
  cases op with
  | byte context => exact byte_keepsPlace context
  | bytes n context => exact bytes_keepsPlace n context
  | fixed64 context => exact (bytes_keepsPlace 8 context).map _
  | fixed32 context => exact (bytes_keepsPlace 4 context).map _
  | real context => exact ((bytes_keepsPlace 8 context).map _).map _
  | varint => exact h.elim
  | int32 => exact h.elim
  | prefixed => exact h.elim
  | text => exact h.elim
  | tag => exact h.elim
  | skip => exact h.elim
  | unknownField => exact h.elim

theorem length_le_of_varint (context : String) (input : Bytes) :
    input.length ≤ (unread (varint context input)).length + Limits.maxVarintBytes := by
  have hunread : unread (varint context input) =
      unread (varintDigits context Limits.maxVarintBytes input) := by
    rw [varint, bind_apply]
    cases varintDigits context Limits.maxVarintBytes input <;> rfl
  rw [hunread]
  rcases varintDigits_cases context Limits.maxVarintBytes input with
    ⟨front, rest, rfl, ⟨more, last, rfl, _, _, hlength, _⟩, hread⟩ | ⟨hshort, _, hread⟩ |
    ⟨_, hread⟩
  · rw [hread]
    simp only [unread, List.length_append, List.length_singleton]
    omega
  · rw [hread]
    simp only [unread, List.length_nil]
    omega
  · rw [hread]
    simp only [unread, List.length_drop]
    omega

/-- Only text can be refused for what its bytes are. -/
theorem prefixed_ne_invalidUtf8 {field other : String} {input rest : Bytes} :
    prefixed field input ≠ .error (.invalidUtf8 other) rest := by
  rw [ne_eq, prefixed_eq_error_iff, varint_eq_error_iff]
  rcases varintDigits_cases field Limits.maxVarintBytes input with
    ⟨_, _, _, _, hread⟩ | ⟨_, _, hread⟩ | ⟨_, hread⟩
  · simp [hread]
  · simp [hread]
  · simp [hread]

/-! ## Reads that succeed -/

theorem fixed32_reads (context : String) :
    (fixed32 context).Reads fun front word =>
      ∃ content : Bytes, (front = content ∧ content.length = 4) ∧
        word = UInt32.ofNat content.toNatLE :=
  (bytes_reads 4 context).map fun content => UInt32.ofNat content.toNatLE

theorem Reads.isLocal {read : Reader α} {form : Bytes → α → Prop} (h : read.Reads form) :
    read.Local := by
  intro input a rest hread
  rcases (h _ _ _).mp hread with ⟨taken, hinput, hform⟩
  exact ⟨taken, hinput, h.ok_append hform⟩

theorem Operation.isLocal (op : Operation α) : op.run.Local := by
  cases op with
  | byte context => exact (byte_reads context).isLocal
  | bytes n context => exact (bytes_reads n context).isLocal
  | varint context => exact (varint_reads context).isLocal
  | int32 context => exact (int32_reads context).isLocal
  | fixed64 context => exact (fixed64_reads context).isLocal
  | fixed32 context => exact (fixed32_reads context).isLocal
  | real context => exact ((fixed64_reads context).map Double.mk).isLocal
  | prefixed field => exact (prefixed_reads field).isLocal
  | text field => exact (text_reads field).isLocal
  | tag => exact Tag.read_reads.isLocal
  | skip max left tag => exact (Payload.skip_reads max left tag).isLocal
  | unknownField max left tag => exact (UnknownField.read_reads max left tag).isLocal

end Reader

/-! ## Reads move forward -/

theorem Tag.length_lt_of_read {input rest : Bytes} {tag? : Option Tag}
    (h : Tag.read input = .ok tag? rest) : rest.length < input.length := by
  rcases (read_reads _ _ _).mp h with ⟨front, rfl, hfront⟩
  have hpos : 0 < front.length := by
    cases tag? with
    | none => exact hfront.length_pos
    | some tag => exact hfront.length_pos
  rw [List.length_append]
  omega

namespace Payload

theorem length_lt_of_skip {max left : Nat} {tag : Tag} {input rest : Bytes}
    (h : skip max left tag input = .ok () rest) : rest.length < input.length := by
  rcases (skip_reads max left tag _ _ _).mp h with ⟨raw, rfl, _, _, hform⟩
  have hpos := hform.length_pos
  rw [List.length_append]
  omega

end Payload

namespace Reader

variable {α : Type}

theorem Operation.advances (op : Operation α) : op.run.Advances := by
  cases op with
  | byte context => exact byte_advances context
  | bytes n context => exact bytes_advances n context
  | varint context => exact varint_advances context
  | int32 context => exact (varint_advances context).map _
  | fixed64 context => exact (bytes_advances 8 context).map _
  | fixed32 context => exact (bytes_advances 4 context).map _
  | real context => exact ((bytes_advances 8 context).map _).map _
  | prefixed field => exact prefixed_advances field
  | text field => exact text_advances field
  | tag => exact Tag.read_advances
  | skip max left tag => exact Payload.skip_advances max left tag
  | unknownField max left tag => exact UnknownField.read_advances max left tag

end Reader

/-! ## Cursors -/

/-- A position in a buffer; the end of the buffer is one too. -/
@[ext] structure Cursor where
  buffer : Bytes
  position : Nat
  position_le : position ≤ buffer.length

namespace Cursor

variable {α : Type}

def unread (c : Cursor) : Bytes :=
  c.buffer.drop c.position

def before (c : Cursor) (rest : Bytes) : Cursor :=
  ⟨c.buffer, c.buffer.length - rest.length, Nat.sub_le _ _⟩

def read (c : Cursor) (op : Reader.Operation α) : Except DecodeError α × Cursor :=
  (Reader.answer (op.run c.unread), c.before (Reader.unread (op.run c.unread)))

/-- The cursor behind operations in a row, those behind one that failed included. -/
def readAll (c : Cursor) : List (Σ α : Type, Reader.Operation α) → Cursor
  | [] => c
  | op :: ops => (c.read op.2).2.readAll ops

theorem length_unread (c : Cursor) : c.unread.length = c.buffer.length - c.position :=
  List.length_drop

theorem unread_before {c : Cursor} {rest : Bytes} (h : rest <:+ c.unread) :
    (c.before rest).unread = rest :=
  (List.suffix_iff_eq_drop.mp (h.trans (List.drop_suffix _ _))).symm

theorem position_before {c : Cursor} {taken rest : Bytes} (h : c.unread = taken ++ rest) :
    (c.before rest).position = c.position + taken.length := by
  have hlength := congrArg List.length h
  have hle := c.position_le
  rw [length_unread, List.length_append] at hlength
  simp only [before]
  omega

theorem before_unread (c : Cursor) : c.before c.unread = c := by
  apply Cursor.ext
  · rfl
  · have hle := c.position_le
    simp only [before, length_unread]
    omega

/-- An operation reads on from where the cursor stands, and the cursor stops where it stops. -/
theorem unread_read (c : Cursor) (op : Reader.Operation α) :
    (c.read op).2.unread = Reader.unread (op.run c.unread) :=
  unread_before (op.advances c.unread)

theorem position_le_read (c : Cursor) (op : Reader.Operation α) :
    c.position ≤ (c.read op).2.position := by
  rcases op.advances c.unread with ⟨taken, htaken⟩
  have hposition := position_before htaken.symm
  simp only [read]
  omega

theorem read_eq_ok_iff {c : Cursor} {op : Reader.Operation α} {a : α} :
    (c.read op).1 = .ok a ↔ op.run c.unread = .ok a (c.read op).2.unread := by
  rw [unread_read]
  simp only [read]
  cases op.run c.unread with
  | ok b rest => simp [Reader.answer, Reader.unread]
  | error error rest => simp [Reader.answer]

theorem read_eq_error_iff {c : Cursor} {op : Reader.Operation α} {error : DecodeError} :
    (c.read op).1 = .error error ↔ op.run c.unread = .error error (c.read op).2.unread := by
  rw [unread_read]
  simp only [read]
  cases op.run c.unread with
  | ok b rest => simp [Reader.answer]
  | error e rest => simp [Reader.answer, Reader.unread]

/-- What is known of the read that a cursor starts tells where the cursor is behind it. -/
theorem read_of_run {c : Cursor} {op : Reader.Operation α}
    {result : EStateM.Result DecodeError Bytes α} (h : op.run c.unread = result) :
    c.read op = (Reader.answer result, c.before (Reader.unread result)) := by
  rw [read, h]

/-! ## Operations in a row -/

/-- The second cursor stands in the same buffer, and not in front of the first one. -/
structure Reaches (c d : Cursor) : Prop where
  buffer_eq : d.buffer = c.buffer
  position_le : c.position ≤ d.position

namespace Reaches

variable {c d e : Cursor}

theorem refl (c : Cursor) : c.Reaches c :=
  ⟨rfl, Nat.le_refl _⟩

theorem trans (h : c.Reaches d) (h' : d.Reaches e) : c.Reaches e :=
  ⟨h'.buffer_eq.trans h.buffer_eq, Nat.le_trans h.position_le h'.position_le⟩

theorem unread_eq (h : c.Reaches d) :
    c.unread = c.buffer.extract c.position d.position ++ d.unread := by
  have hposition : c.position + (d.position - c.position) = d.position :=
    Nat.add_sub_of_le h.position_le
  have hbehind : d.unread = c.unread.drop (d.position - c.position) := by
    rw [unread, unread, List.drop_drop, hposition, h.buffer_eq]
  rw [hbehind]
  exact (List.take_append_drop _ _).symm

end Reaches

theorem reaches_read (c : Cursor) (op : Reader.Operation α) : c.Reaches (c.read op).2 :=
  ⟨rfl, c.position_le_read op⟩

theorem reaches_readAll (c : Cursor) (ops : List (Σ α : Type, Reader.Operation α)) :
    c.Reaches (c.readAll ops) := by
  induction ops generalizing c with
  | nil => exact .refl c
  | cons op ops ih => exact (c.reaches_read op.2).trans (ih (c.read op.2).2)

/-! ## Reading by index -/

theorem read_byte (c : Cursor) (context : String) :
    c.read (.byte context) =
      if h : c.position < c.buffer.length then
        (.ok c.buffer[c.position], ⟨c.buffer, c.position + 1, h⟩)
      else
        (.error (.truncated context), c) := by
  by_cases h : c.position < c.buffer.length
  · rw [dif_pos h]
    have hunread : c.unread = [c.buffer[c.position]] ++ c.buffer.drop (c.position + 1) :=
      List.drop_eq_getElem_cons h
    have hrun : (Reader.Operation.byte context).run c.unread =
        .ok c.buffer[c.position] (c.buffer.drop (c.position + 1)) := by
      rw [hunread]
      rfl
    rw [read_of_run hrun]
    exact Prod.ext rfl (Cursor.ext rfl (position_before hunread))
  · rw [dif_neg h]
    have hunread : c.unread = [] := List.drop_eq_nil_of_le (Nat.le_of_not_lt h)
    have hrun : (Reader.Operation.byte context).run c.unread =
        .error (.truncated context) c.unread := by
      rw [hunread]
      rfl
    rw [read_of_run hrun]
    exact Prod.ext rfl c.before_unread

theorem read_bytes (c : Cursor) (n : Nat) (context : String) :
    c.read (.bytes n context) =
      if h : c.position + n ≤ c.buffer.length then
        (.ok (c.buffer.extract c.position (c.position + n)), ⟨c.buffer, c.position + n, h⟩)
      else
        (.error (.truncated context), c) := by
  have hle := c.position_le
  have hlength := c.length_unread
  by_cases h : c.position + n ≤ c.buffer.length
  · rw [dif_pos h]
    have hextract : c.buffer.extract c.position (c.position + n) = c.unread.take n := by
      rw [List.extract_eq_take_drop, Nat.add_sub_cancel_left, unread]
    have htaken : (c.unread.take n).length = n := by
      rw [List.length_take]
      omega
    have hunread : c.unread = c.unread.take n ++ c.unread.drop n :=
      (List.take_append_drop n c.unread).symm
    have hrun : (Reader.Operation.bytes n context).run c.unread =
        .ok (c.unread.take n) (c.unread.drop n) :=
      (Reader.bytes_reads n context _ _ _).mpr ⟨_, hunread, rfl, htaken⟩
    have hposition := position_before hunread
    rw [htaken] at hposition
    rw [read_of_run hrun, hextract]
    exact Prod.ext rfl (Cursor.ext rfl hposition)
  · rw [dif_neg h]
    have hrun : (Reader.Operation.bytes n context).run c.unread =
        .error (.truncated context) c.unread :=
      Reader.bytes_eq_error_iff.mpr ⟨by omega, rfl, rfl⟩
    rw [read_of_run hrun]
    exact Prod.ext rfl c.before_unread

/-! ## Where a read stops -/

theorem eq_of_unread_eq {c d : Cursor} (hbuffer : d.buffer = c.buffer)
    (hunread : d.unread = c.unread) : d = c := by
  have hlength := congrArg List.length hunread
  have hc := c.position_le
  have hd := d.position_le
  rw [length_unread, length_unread, hbuffer] at hlength
  rw [hbuffer] at hd
  exact Cursor.ext hbuffer (by omega)

theorem read_of_isFixed {c : Cursor} {op : Reader.Operation α} (h : op.IsFixed)
    {error : DecodeError} (herror : (c.read op).1 = .error error) : (c.read op).2 = c := by
  have hunread := Reader.Operation.keepsPlace_of_isFixed h _ _ _ (read_eq_error_iff.mp herror)
  exact eq_of_unread_eq rfl hunread

theorem length_unread_read (c : Cursor) (op : Reader.Operation α) :
    (c.read op).2.position + (c.read op).2.unread.length = c.position + c.unread.length := by
  have hc := c.position_le
  have hbehind := (c.read op).2.position_le
  have hbuffer := (c.reaches_read op).buffer_eq
  rw [hbuffer] at hbehind
  rw [length_unread, length_unread, hbuffer]
  omega

theorem position_read_varint_le (c : Cursor) (context : String) :
    (c.read (.varint context)).2.position ≤ c.position + Limits.maxVarintBytes := by
  have hlength := c.length_unread_read (.varint context)
  have hle := Reader.length_le_of_varint context c.unread
  rw [unread_read, Reader.Operation.run] at hlength
  omega

theorem position_lt_read {c : Cursor} {op : Reader.Operation α} {a : α}
    (h : (c.read op).1 = .ok a)
    (hless : ∀ {input a rest}, op.run input = .ok a rest → rest.length < input.length) :
    c.position < (c.read op).2.position := by
  have hlength := c.length_unread_read op
  have hrest := hless (read_eq_ok_iff.mp h)
  omega

section

variable {c : Cursor} {field : String}

theorem read_prefixed {length : UInt64} (h : (c.read (.varint field)).1 = .ok length) :
    c.read (.prefixed field) =
      (c.read (.varint field)).2.read (.bytes length.toNat field) := by
  have hlength : Reader.varint field c.unread = .ok length (c.read (.varint field)).2.unread :=
    read_eq_ok_iff.mp h
  have hrun : (Reader.Operation.prefixed field).run c.unread =
      (Reader.Operation.bytes length.toNat field).run (c.read (.varint field)).2.unread := by
    change Reader.prefixed field c.unread = _
    rw [Reader.prefixed, Reader.bind_apply, hlength]
    rfl
  rw [read_of_run hrun]
  rfl

/-- A payload that is cut short leaves the cursor behind its length. -/
theorem read_prefixed_of_error {length : UInt64} {error : DecodeError}
    (h : (c.read (.varint field)).1 = .ok length)
    (herror : (c.read (.prefixed field)).1 = .error error) :
    error = .truncated field ∧ (c.read (.prefixed field)).2 = (c.read (.varint field)).2 := by
  rw [read_prefixed h] at herror ⊢
  have hbytes := Reader.bytes_eq_error_iff.mp (read_eq_error_iff.mp herror)
  exact ⟨hbytes.2.1, read_of_isFixed trivial herror⟩

theorem read_text_of_error {error : DecodeError} (h : (c.read (.text field)).1 = .error error) :
    (c.read (.text field)).2 = (c.read (.prefixed field)).2 ∧
      ((c.read (.prefixed field)).1 = .error error ∨
        error = .invalidUtf8 field ∧ ∃ content, (c.read (.prefixed field)).1 = .ok content) := by
  have hrun := read_eq_error_iff.mp h
  generalize (c.read (.text field)).2.unread = rest at hrun
  rw [read_of_run hrun]
  rcases Reader.text_eq_error_iff.mp hrun with hprefixed | ⟨content, hprefixed, _, rfl⟩
  · have hread : (Reader.Operation.prefixed field).run c.unread = .error error rest := hprefixed
    rw [read_of_run hread]
    exact ⟨rfl, .inl rfl⟩
  · have hread : (Reader.Operation.prefixed field).run c.unread = .ok content rest := hprefixed
    rw [read_of_run hread]
    exact ⟨rfl, .inr ⟨rfl, content, rfl⟩⟩

end

/-! ## What a read depends on -/

/-- Where the bytes that were passed stand in front, they are read in the same way. -/
theorem read_of_prefix {c d : Cursor} {op : Reader.Operation α} {a : α}
    (h : (c.read op).1 = .ok a)
    (hfront : c.buffer.extract c.position (c.read op).2.position <+: d.unread) :
    (d.read op).1 = .ok a ∧
      (d.read op).2.position - d.position = (c.read op).2.position - c.position := by
  rcases op.isLocal _ _ _ (read_eq_ok_iff.mp h) with ⟨taken, htaken, hlocal⟩
  have hslice := (c.reaches_read op).unread_eq
  rw [htaken] at hslice
  rw [← List.append_cancel_right hslice] at hfront
  rcases hfront with ⟨other, hother⟩
  have hrun : op.run d.unread = .ok a other := by
    rw [← hother]
    exact hlocal other
  have hlength := c.length_unread_read op
  have hposition := position_before hother.symm
  rw [htaken, List.length_append] at hlength
  rw [read_of_run hrun]
  refine ⟨rfl, ?_⟩
  simp only [Reader.unread]
  omega

end Cursor

end TestWire
