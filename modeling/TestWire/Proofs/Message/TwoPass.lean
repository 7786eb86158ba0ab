import TestWire.Proofs.Message.Plain
import TestWire.Proofs.Message.Tree

/-! # The two passes of encoding

Measuring records the sizes of the nested messages in the order of writing, and writing takes
exactly these.  So encoding in two passes is the plain encoder behind the checks.
-/

namespace TestWire

/-! ## Writing -/

namespace Output

theorem startNested_cons (tag : Tag) (size : Nat) (sizes : List Nat) (w : Writer) :
    (⟨size :: sizes, w⟩ : Output).startNested tag =
      ⟨sizes, w.bytes (tag.encode ++ Varint.encode (UInt64.ofNat size))⟩ := by
  simp only [startNested, List.tail_cons, List.headD_cons, Writer.tag, Writer.varint,
    Writer.bytes_bytes]

theorem unknownFields_eq (sizes : List Nat) (w : Writer) (fields : UnknownFields) :
    (⟨sizes, w⟩ : Output).unknownFields fields =
      ⟨sizes, w.bytes (UnknownFields.encode fields)⟩ := by
  rw [unknownFields, Writer.unknownFields_eq_bytes]

theorem scalar_eq (sizes : List Nat) (w : Writer) (s : Scalar) :
    (⟨sizes, w⟩ : Output).scalar s = ⟨sizes, w.bytes s.plain⟩ := by
  unfold Output.scalar Scalar.plain
  split
  · rw [Writer.bytes_nil]
  · rw [Writer.tag, Writer.bytes_bytes]

end Output

theorem Value.writeAll_eq_of_forall {values : List Value}
    (h : ∀ v ∈ values, ∀ (after : List Nat) (w : Writer),
      v.write ⟨v.nestedSizes ++ after, w⟩ = ⟨after, w.bytes v.plain⟩)
    (after : List Nat) (w : Writer) :
    Value.writeAll values ⟨Value.nestedSizesAll values ++ after, w⟩ =
      ⟨after, w.bytes (Value.plainAll values)⟩ := by
  induction values generalizing w with
  | nil => simp [Value.writeAll, Value.nestedSizesAll, Value.plainAll, Writer.bytes_nil]
  | cons v values ih =>
      have hhead := h v List.mem_cons_self
      have htail := ih fun v hv => h v (List.mem_cons_of_mem _ hv)
      simp only [Value.writeAll, Value.nestedSizesAll, Value.plainAll, List.cons_append,
        List.append_assoc, Output.startNested_cons, hhead, htail, Writer.bytes_bytes,
        Tag.encodeNested, Varint.encodePrefixed]

theorem Value.write_eq (v : Value) (after : List Nat) (w : Writer) :
    v.write ⟨v.nestedSizes ++ after, w⟩ = ⟨after, w.bytes v.plain⟩ := by
  induction v using Value.induction generalizing after w with
  | leaf content unknown =>
      cases content with
      | none => simp [Value.write, Value.nestedSizes, Value.plain, Output.unknownFields_eq]
      | some s =>
          simp [Value.write, Value.nestedSizes, Value.plain, Output.scalar_eq,
            Output.unknownFields_eq, Writer.bytes_bytes]
  | aggregate values inner unknown ih =>
      have hall := Value.writeAll_eq_of_forall ih
      simp only [Value.write, Value.nestedSizes, Value.plain, List.cons_append, List.append_assoc,
        Output.startNested_cons, hall, Output.unknownFields_eq, Writer.bytes_bytes,
        Tag.encodeNested, Varint.encodePrefixed, Composite.plain]

theorem Value.writeAll_eq (values : List Value) (after : List Nat) (w : Writer) :
    Value.writeAll values ⟨Value.nestedSizesAll values ++ after, w⟩ =
      ⟨after, w.bytes (Value.plainAll values)⟩ :=
  Value.writeAll_eq_of_forall (fun v _ => v.write_eq) after w

theorem BitString.write_eq (b : BitString) (sizes : List Nat) (w : Writer) :
    b.write ⟨sizes, w⟩ = ⟨sizes, w.bytes b.plain⟩ := by
  unfold BitString.write BitString.plain
  split <;> split <;>
    simp [Writer.unknownFields_eq_bytes, Writer.bytes_bytes, Writer.tag, Writer.prefixed,
      Writer.varint, Writer.int32, Varint.encodePrefixed]

/-- Writing takes the sizes of the nested messages and no others, and appends the encoding. -/
theorem Message.write_eq {s : Schema} (m : Message s) (after : List Nat) (w : Writer) :
    m.write ⟨m.nestedSizes ++ after, w⟩ = ⟨after, w.bytes m.plain⟩ := by
  cases s with
  | value => exact Value.write_eq m after w
  | composite =>
      simp only [Message.write, Composite.write, Message.nestedSizes, Message.plain,
        Composite.plain, Value.writeAll_eq, Output.unknownFields_eq, Writer.bytes_bytes]
  | bits => exact BitString.write_eq m after w

/-! ## What stands against a message -/

/-- The answer, unless something stands against it; then the first thing that does. -/
def refuse {α : Type} : List EncodeError → α → Except EncodeError α
  | [], a => .ok a
  | error :: _, _ => .error error

def Schema.refusal? (s : Schema) (field : UnknownField) : Option EncodeError :=
  if field.number = 0 ∨ Limits.maxFieldNumber < field.number.toNat then
    some (.invalidFieldNumber field.number)
  else if s.knows field.tag then
    some (.knownFieldConflict s.name field.number)
  else
    none

def Schema.refusals (s : Schema) (fields : UnknownFields) : List EncodeError :=
  fields.filterMap s.refusal?

mutual

/-- What a value holds is looked through before its unknown fields, and nothing that is too deep. -/
def Value.violations (max : Nat) : Nat → Value → List EncodeError
  | _, .leaf _ unknown => Schema.value.refusals unknown
  | 0, .aggregate _ _ unknown => .depthExceeded max :: Schema.value.refusals unknown
  | left + 1, .aggregate values inner unknown =>
      Value.violationsAll max left values ++ Schema.composite.refusals inner ++
        Schema.value.refusals unknown

def Value.violationsAll (max : Nat) : Nat → List Value → List EncodeError
  | _, [] => []
  | 0, _ :: values => .depthExceeded max :: Value.violationsAll max 0 values
  | left + 1, v :: values =>
      Value.violations max left v ++ Value.violationsAll max (left + 1) values

end

def Composite.violations (max left : Nat) (c : Composite) : List EncodeError :=
  Value.violationsAll max left c.values ++ Schema.composite.refusals c.unknown

def Message.violations (max : Nat) : {s : Schema} → Message s → List EncodeError
  | .value, v => Value.violations max max v
  | .composite, c => Composite.violations max max c
  | .bits, b => Schema.bits.refusals b.unknown

theorem refuse_append {α : Type} (errors errors' : List EncodeError) (a : α) :
    refuse (errors ++ errors') a = (refuse errors ()).bind fun _ => refuse errors' a := by
  cases errors <;> rfl

theorem Schema.unknownSize_eq (s : Schema) (fields : UnknownFields) :
    s.unknownSize fields = refuse (s.refusals fields) (UnknownFields.encode fields).length := by
  induction fields with
  | nil => rfl
  | cons field fields ih =>
      rw [unknownSize, refusals, List.filterMap_cons, refusal?]
      split
      · rfl
      · split
        · rfl
        · rw [ih, ← refusals]
          cases s.refusals fields with
          | nil => simp [refuse, Except.map]
          | cons error errors => rfl

/-! ## Measuring -/

/-- What a measurement gives: the first of some errors, or a size and the sizes it records. -/
def Measure.Gives (measure : Measure Nat) (errors : List EncodeError) (size : Nat)
    (recorded : List Nat) : Prop :=
  ∀ sizes : Array Nat, measure sizes = refuse errors (size, sizes ++ recorded.toArray)

namespace Measure.Gives

theorem pure (size : Nat) : Gives (Pure.pure size) [] size [] := by
  intro sizes
  have hpure : (Pure.pure size : Measure Nat) sizes = .ok (size, sizes) := rfl
  simp [hpure, refuse]

theorem lift (errors : List EncodeError) (size : Nat) :
    Gives (liftM (refuse errors size)) errors size [] := by
  intro sizes
  have hlift : (liftM (refuse errors size) : Measure Nat) sizes =
      (refuse errors size).bind fun size => .ok (size, sizes) := rfl
  rw [hlift]
  cases errors <;> simp [refuse, Except.bind]

theorem bind {measure : Measure Nat} {next : Nat → Measure Nat} {errors errors' : List EncodeError}
    {size size' : Nat} {recorded recorded' : List Nat} (h : measure.Gives errors size recorded)
    (hnext : (next size).Gives errors' size' recorded') :
    Gives (measure >>= next) (errors ++ errors') size' (recorded ++ recorded') := by
  intro sizes
  have hbind : (measure >>= next) sizes =
      (measure sizes).bind fun result => next result.1 result.2 := rfl
  rw [hbind, h sizes, refuse_append]
  cases errors with
  | nil =>
      have hsizes : sizes ++ recorded.toArray ++ recorded'.toArray =
          sizes ++ (recorded ++ recorded').toArray := by simp
      rw [← hsizes]
      exact hnext _
  | cons error errors => rfl

theorem nested {body : Measure Nat} {errors : List EncodeError} {size : Nat}
    {recorded : List Nat} (h : body.Gives errors size recorded) (tag : Tag) :
    (Measure.nested tag body).Gives errors (tag.size + Varint.prefixedSize size)
      (size :: recorded) := by
  intro sizes
  have hnested : Measure.nested tag body sizes =
      (body (sizes.push 0)).bind fun result =>
        .ok (tag.size + Varint.prefixedSize result.1,
          result.2.setIfInBounds sizes.size result.1) := rfl
  rw [hnested, h]
  cases errors with
  | nil =>
      have hset : (sizes.push 0 ++ recorded.toArray).setIfInBounds sizes.size size =
          sizes ++ (size :: recorded).toArray := by
        apply Array.toList_inj.mp
        simp
      simp only [refuse, Except.bind, hset]
  | cons error errors => rfl

/-- A size that is only added to leaves what is recorded as it is. -/
theorem add {measure : Measure Nat} {errors : List EncodeError} {size : Nat} {recorded : List Nat}
    (h : measure.Gives errors size recorded) (f : Nat → Nat) :
    Gives (measure >>= fun n => Pure.pure (f n)) errors (f size) recorded := by
  have hadd : Gives (measure >>= fun n => Pure.pure (f n)) (errors ++ []) (f size)
      (recorded ++ []) := h.bind (Gives.pure (f size))
  rwa [List.append_nil, List.append_nil] at hadd

theorem enter_zero (max : Nat) (next : Nat → Measure Nat) (errors : List EncodeError) (size : Nat)
    (recorded : List Nat) :
    Gives (liftM (Measure.enter max 0) >>= next) (.depthExceeded max :: errors) size recorded :=
  fun _ => rfl

theorem enter_succ {max left : Nat} {next : Nat → Measure Nat} {errors : List EncodeError}
    {size : Nat} {recorded : List Nat} (h : (next left).Gives errors size recorded) :
    Gives (liftM (Measure.enter max (left + 1)) >>= next) errors size recorded :=
  h

theorem unknownSize (s : Schema) (fields : UnknownFields) :
    Gives (liftM (s.unknownSize fields)) (s.refusals fields) (UnknownFields.encode fields).length
      [] := by
  rw [Schema.unknownSize_eq]
  exact lift _ _

theorem addUnknown {measure : Measure Nat} {errors : List EncodeError} {size : Nat}
    {recorded : List Nat} (h : measure.Gives errors size recorded) (s : Schema)
    (fields : UnknownFields) :
    Gives (measure >>= fun n => liftM (s.unknownSize fields) >>= fun m => Pure.pure (n + m))
      (errors ++ s.refusals fields) (size + (UnknownFields.encode fields).length) recorded := by
  have hboth : Gives
      (measure >>= fun n => liftM (s.unknownSize fields) >>= fun m => Pure.pure (n + m))
      (errors ++ s.refusals fields) (size + (UnknownFields.encode fields).length)
      (recorded ++ []) := h.bind ((unknownSize s fields).add (size + ·))
  rwa [List.append_nil] at hboth

end Measure.Gives

theorem Value.measureAll_gives_of_forall (max : Nat) {values : List Value}
    (h : ∀ v ∈ values, ∀ left,
      (Value.measure max left v).Gives (v.violations max left) v.plain.length v.nestedSizes)
    (left total : Nat) :
    (Value.measureAll max left total values).Gives (Value.violationsAll max left values)
      (total + (Value.plainAll values).length) (Value.nestedSizesAll values) := by
  induction values generalizing total with
  | nil =>
      simp only [Value.measureAll, Value.violationsAll, Value.plainAll, Value.nestedSizesAll]
      exact Measure.Gives.pure _
  | cons v values ih =>
      have htail := ih fun v hv => h v (List.mem_cons_of_mem _ hv)
      cases left with
      | zero => exact Measure.Gives.enter_zero max _ _ _ _
      | succ left =>
          have hhead := (h v List.mem_cons_self left).nested Composite.elementTag
          have hsize (total : Nat) : total + (Value.plainAll (v :: values)).length =
              total + (Composite.elementTag.size + Varint.prefixedSize v.plain.length) +
                (Value.plainAll values).length := by
            simp only [Value.plainAll, List.length_append, Tag.length_encodeNested]
            omega
          rw [hsize]
          exact Measure.Gives.enter_succ (hhead.bind (htail _))

theorem Value.measure_gives (max left : Nat) (v : Value) :
    (Value.measure max left v).Gives (v.violations max left) v.plain.length v.nestedSizes := by
  induction v using Value.induction generalizing left with
  | leaf content unknown =>
      have hsize : (Value.leaf content unknown).plain.length =
          (content.map Scalar.fieldSize).getD 0 + (UnknownFields.encode unknown).length := by
        cases content <;> simp [Value.plain, Scalar.length_plain]
      simp only [Value.violations, Value.nestedSizes, hsize]
      exact (Measure.Gives.unknownSize .value unknown).add _
  | aggregate values inner unknown ih =>
      have hown := Measure.Gives.unknownSize .value unknown
      cases left with
      | zero => exact Measure.Gives.enter_zero max _ _ _ _
      | succ left =>
          have helements := Value.measureAll_gives_of_forall max ih left 0
          have hbody := (helements.addUnknown .composite inner).nested Case.aggregate.tag
          have hsize : (Value.aggregate values inner unknown).plain.length =
              Case.aggregate.tag.size + Varint.prefixedSize
                (0 + (Value.plainAll values).length + (UnknownFields.encode inner).length) +
                (UnknownFields.encode unknown).length := by
            simp only [Value.plain, List.length_append, Tag.length_encodeNested, Nat.zero_add]
          have hsizes : (Value.aggregate values inner unknown).nestedSizes =
              (0 + (Value.plainAll values).length + (UnknownFields.encode inner).length) ::
                Value.nestedSizesAll values := by
            simp only [Value.nestedSizes, Composite.plain, List.length_append, Nat.zero_add]
          rw [hsize, hsizes]
          exact Measure.Gives.enter_succ (hbody.addUnknown .value unknown)

theorem Composite.measure_gives (max left : Nat) (c : Composite) :
    (c.measure max left).Gives (c.violations max left) c.plain.length
      (Value.nestedSizesAll c.values) := by
  have hforall : ∀ v ∈ c.values, ∀ left,
      (Value.measure max left v).Gives (v.violations max left) v.plain.length v.nestedSizes :=
    fun v _ left => Value.measure_gives max left v
  have helements := Value.measureAll_gives_of_forall max hforall left 0
  have hsize : c.plain.length =
      0 + (Value.plainAll c.values).length + (UnknownFields.encode c.unknown).length := by
    simp [Composite.plain]
  rw [hsize]
  exact helements.addUnknown .composite c.unknown

theorem BitString.measure_gives (b : BitString) :
    b.measure.Gives (Schema.bits.refusals b.unknown) b.plain.length [] := by
  have hsize : b.plain.length = (UnknownFields.encode b.unknown).length +
      (if b.data.isEmpty then 0 else dataTag.size + Varint.prefixedSize b.data.length) +
      (if b.nbits = 0 then 0 else nbitsTag.size + Varint.int32Size b.nbits) := by
    unfold BitString.plain
    split <;> split <;> simp only [List.length_append, List.length_nil, Tag.length_encode,
      Varint.length_encodePrefixed, Varint.length_encodeInt32] <;> omega
  rw [hsize]
  exact (Measure.Gives.unknownSize .bits b.unknown).add _

theorem Message.measure_gives {s : Schema} (max : Nat) (m : Message s) :
    (m.measure max).Gives (m.violations max) m.plain.length m.nestedSizes := by
  cases s with
  | value => exact Value.measure_gives max max m
  | composite => exact Composite.measure_gives max max m
  | bits => exact BitString.measure_gives m

/-! ## Both passes -/

namespace Message

theorem sizes_eq {s : Schema} (maxDepth : Nat) (m : Message s) :
    sizes maxDepth m = refuse (m.violations maxDepth) (m.plain.length, m.nestedSizes.toArray) := by
  have hgives := measure_gives maxDepth m #[]
  rwa [Array.empty_append] at hgives

theorem encodedSize_eq {s : Schema} (maxDepth : Nat) (m : Message s) :
    encodedSize maxDepth m = refuse (m.violations maxDepth) m.plain.length := by
  rw [encodedSize, sizes_eq]
  cases m.violations maxDepth <;> rfl

theorem encode_eq {s : Schema} (maxDepth : Nat) (m : Message s) :
    encode maxDepth m =
      (encodedSize maxDepth m).bind fun size =>
        if Limits.maxEncodedSize < size then
          .error (.messageTooLarge size Limits.maxEncodedSize)
        else
          .ok m.plain := by
  have hwritten : (write m ⟨m.nestedSizes, {}⟩).writer.toBytes = m.plain := by
    have hwrite := write_eq m [] {}
    rw [List.append_nil] at hwrite
    simp [hwrite]
  have hencode : encode maxDepth m = (sizes maxDepth m).bind fun result =>
      if Limits.maxEncodedSize < result.1 then
        .error (.messageTooLarge result.1 Limits.maxEncodedSize)
      else
        .ok (write m ⟨result.2.toList, {}⟩).writer.toBytes := by
    rfl
  rw [hencode, encodedSize_eq, sizes_eq]
  cases m.violations maxDepth with
  | nil => simp only [refuse, Except.bind, hwritten]
  | cons error errors => rfl

theorem encode_eq_ok_iff {s : Schema} {maxDepth : Nat} {m : Message s} {bytes : Bytes} :
    encode maxDepth m = .ok bytes ↔
      m.violations maxDepth = [] ∧ m.plain.length ≤ Limits.maxEncodedSize ∧ bytes = m.plain := by
  rw [encode_eq, encodedSize_eq]
  cases m.violations maxDepth with
  | cons error errors => simp [refuse, Except.bind]
  | nil =>
      simp only [refuse, Except.bind]
      split
      · next hlarge => simp; omega
      · next hfits => simp [eq_comm]; omega

/--
A message that has a size within the bound is encoded in that many bytes, which are those of the
plain encoder.  The sizes that are recorded are those of the nested messages in the order of
writing, and writing takes them and nothing behind them.  A message without a size is not encoded,
for the same reason.
-/
theorem two_passes_eq_plain {s : Schema} (maxDepth : Nat) (m : Message s) :
    (∀ size, encodedSize maxDepth m = .ok size → size ≤ Limits.maxEncodedSize →
      encode maxDepth m = .ok m.plain ∧ m.plain.length = size ∧
      sizes maxDepth m = .ok (size, m.nestedSizes.toArray) ∧
      ∀ (after : List Nat) (w : Writer),
        m.write ⟨m.nestedSizes ++ after, w⟩ = ⟨after, w.bytes m.plain⟩) ∧
    ∀ error, encodedSize maxDepth m = .error error → encode maxDepth m = .error error := by
  constructor
  · intro size hsize hfits
    have hencode := encode_eq maxDepth m
    have hsizes := sizes_eq maxDepth m
    rw [hsize] at hencode
    rw [encodedSize_eq] at hsize
    cases hnone : m.violations maxDepth with
    | cons error errors =>
        rw [hnone] at hsize
        cases hsize
    | nil =>
        rw [hnone] at hsize hsizes
        cases hsize
        refine ⟨?_, rfl, hsizes, write_eq m⟩
        simp only [hencode, Except.bind]
        rw [if_neg (by omega)]
  · intro error herror
    rw [encode_eq, herror]
    rfl

def siblings : Message .value :=
  Value.ofComposite (.ofValues [Value.ofComposite (.ofValues [Value.ofScalar (.integer 1)]),
    Value.ofComposite (.ofValues [Value.ofComposite {}])])

/-- Siblings are measured on their own, and the second of these takes five levels. -/
theorem two_passes_eq_plain_siblings :
    encodedSize 5 siblings = .ok 18 ∧
    encode 5 siblings =
      .ok [0x42, 16, 0x0a, 6, 0x42, 4, 0x0a, 2, 0x30, 1, 0x0a, 6, 0x42, 4, 0x0a, 2, 0x42, 0] ∧
    encodedSize 4 siblings = .error (.depthExceeded 4) ∧
    encode 4 siblings = .error (.depthExceeded 4) := by
  have hsize : encodedSize 5 siblings = .ok 18 := rfl
  have herror : encodedSize 4 siblings = .error (.depthExceeded 4) := by
    rw [encodedSize_eq]
    rfl
  have hfits : 18 ≤ Limits.maxEncodedSize := by simp [Limits.maxEncodedSize]
  have hencode := ((two_passes_eq_plain 5 siblings).1 18 hsize hfits).1
  have hplain : siblings.plain =
      [0x42, 16, 0x0a, 6, 0x42, 4, 0x0a, 2, 0x30, 1, 0x0a, 6, 0x42, 4, 0x0a, 2, 0x42, 0] := by
    decide +kernel
  rw [hplain] at hencode
  exact ⟨hsize, hencode, herror, (two_passes_eq_plain 4 siblings).2 _ herror⟩

end Message

end TestWire
