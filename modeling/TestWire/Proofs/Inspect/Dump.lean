import TestWire.Inspect.Report
import TestWire.Proofs.Message.FrameByFrame
import TestWire.Proofs.Message.Relay

/-! # Dumps of streams

A dump goes along with the reader of its stream: each message that a call gives is shown, and the
first call that gives none ends the dump.
-/

namespace TestWire

/-! ## What is shown of a message -/

namespace Bytes

def hexAlphabet : List Char :=
  ['0', '1', '2', '3', '4', '5', '6', '7', '8', '9', 'a', 'b', 'c', 'd', 'e', 'f']

/-- For each byte the digit of its high half and the digit of its low half. -/
def hexText (bytes : Bytes) : String :=
  String.ofList (bytes.flatMap fun byte =>
    [hexAlphabet.getD (byte.toNat / 16) ' ', hexAlphabet.getD (byte.toNat % 16) ' '])

theorem hexDigit_eq {n : Nat} (h : n < 16) : hexDigit n = hexAlphabet.getD n ' ' := by
  have hall : ∀ n : Fin 16, hexDigit n = hexAlphabet.getD n ' ' := by decide
  exact hall ⟨n, h⟩

theorem hexChars_eq_flatMap (bytes : Bytes) :
    hexChars bytes = bytes.flatMap fun byte =>
      [hexAlphabet.getD (byte.toNat / 16) ' ', hexAlphabet.getD (byte.toNat % 16) ' '] := by
  induction bytes with
  | nil => rfl
  | cons byte bytes ih =>
      have hlt := byte.toNat_lt
      have hhigh : byte.toNat / 16 < 16 := by omega
      have hlow : byte.toNat % 16 < 16 := by omega
      rw [hexChars, hexDigit_eq hhigh, hexDigit_eq hlow, ih, List.flatMap_cons]
      rfl

theorem hex_eq_hexText (bytes : Bytes) : bytes.hex = bytes.hexText := by
  rw [hex, hexText, hexChars_eq_flatMap]

end Bytes

/-- A composite is written as the aggregate that holds its elements, a bit string as its bits. -/
def Message.text : {s : Schema} → Message s → String
  | .value, v => Value.render v
  | .composite, c => Value.render (.ofComposite c)
  | .bits, b => "'" ++ String.ofList (b.bits.map BitString.digit) ++ "'B"

theorem Message.render_eq_text {s : Schema} (m : Message s) : m.render = m.text := by
  cases s with
  | value => rfl
  | composite => rfl
  | bits =>
      apply String.toList_inj.mp
      simp [render, text, BitString.render]

namespace Inspect

variable {s : Schema} {limits : DecodeLimits}

/-- The lines that show messages: of each one, after an empty line, its number, counted from
`count`, and its text, and then a line for each of its unknown fields. -/
def numbered (count : Nat) (messages : List (Message s)) : List String :=
  (messages.zipIdx count).flatMap fun (m, i) =>
    "" :: s!"[{i}] {m.text}" :: m.unknown.map fun field =>
      s!"  unknown field {field.number} ({field.wireType.name}): {field.payload.hexText}"

theorem numbered_cons (count : Nat) (m : Message s) (messages : List (Message s)) :
    numbered count (m :: messages) =
      messageLines (some count) m ++ numbered (count + 1) messages := by
  have hlines : m.unknown.map unknownLine = m.unknown.map fun field =>
      s!"  unknown field {field.number} ({field.wireType.name}): {field.payload.hexText}" := by
    unfold unknownLine
    simp only [Bytes.hex_eq_hexText]
  unfold numbered messageLines
  rw [List.zipIdx_cons, List.flatMap_cons, hlines, Message.render_eq_text]

/-- A key that fills the first columns of a line stands in front of the value as it is. -/
theorem entryLine_eq {key front : String}
    (h : "  " ++ key ++ String.ofList (List.replicate (20 - key.length) ' ') ++ " " = front)
    (value : String) : entryLine key value = front ++ value :=
  congrArg (· ++ value) h

/-- What is said of a frame that fails behind `index` messages, with the reader at `offset`. -/
def frameFailure (s : Schema) (index offset : Nat) (error : DecodeError) : String :=
  s!"failed to decode {s.name} #{index} before offset {offset}: {error.message}"

/-- A dump shows the messages that the reader gives, from some stream on and numbered from some
number on, until a call gives none. -/
theorem dumpItems_of_yields {stream : FrameStream}
    {frames : List (Except DecodeError (Message s × Nat))}
    (h : FrameStream.Yields limits stream frames) (size count : Nat) :
    ∃ messages : List (Message s),
      (∀ i m, messages[i]? = some m →
        ((stream.afterCalls s limits i).call s limits).1 = some (.ok m)) ∧
      (((stream.afterCalls s limits messages.length).call s limits).1 = none ∧
          dumpItems s size count (stream.items s limits) =
            { lines := numbered count messages ++
                [entryLine "Messages" (toString (count + messages.length))] } ∨
        ∃ error,
          ((stream.afterCalls s limits messages.length).call s limits).1 = some (.error error) ∧
          dumpItems s size count (stream.items s limits) =
            { lines := numbered count messages
              failure := frameFailure s (count + messages.length)
                (size - (stream.afterCalls s limits (messages.length + 1)).unread.length)
                error }) := by
  induction h generalizing count with
  | @ended stream hnext =>
      refine ⟨[], nofun, .inl ⟨congrArg Prod.fst (FrameStream.call_of_ended hnext), ?_⟩⟩
      rw [FrameStream.items_eq, hnext]
      rfl
  | @failed stream behind error hnext _ _ =>
      refine ⟨[], nofun, .inr ⟨error, congrArg Prod.fst (FrameStream.call_of_next? hnext), ?_⟩⟩
      rw [FrameStream.items_eq, hnext, FrameStream.afterCalls_succ hnext]
      rfl
  | @message stream behind m frame frames hnext _ _ _ ih =>
      rcases ih (count + 1) with ⟨messages, hgiven, hend⟩
      have hitems : dumpItems s size count (stream.items s limits) =
          (dumpItems s size (count + 1) (behind.items s limits)).after
            (messageLines (some count) m) := by
        rw [FrameStream.items_eq, hnext]
        rfl
      have hlength : count + (messages.length + 1) = count + 1 + messages.length := by omega
      refine ⟨m :: messages, ?_, ?_⟩
      · intro i m' hm'
        cases i with
        | zero =>
            cases hm'
            exact congrArg Prod.fst (FrameStream.call_of_next? hnext)
        | succ i =>
            rw [FrameStream.afterCalls_succ hnext]
            exact hgiven i m' hm'
      · rw [hitems, List.length_cons, hlength, FrameStream.afterCalls_succ hnext,
          FrameStream.afterCalls_succ hnext, numbered_cons]
        rcases hend with ⟨hcall, hdump⟩ | ⟨error, hcall, hdump⟩
        · exact .inl ⟨hcall, by rw [hdump, Report.after, List.append_assoc]⟩
        · exact .inr ⟨error, hcall, by rw [hdump, Report.after]⟩

theorem decode_of_call {stream : FrameStream} {m : Message s}
    (h : (stream.call s limits).1 = some (.ok m)) :
    ∃ body, Message.decode s limits body = .ok m := by
  cases hnext : stream.next? s limits with
  | none => simp [FrameStream.call_of_ended hnext] at h
  | some next =>
      rcases next with ⟨item, behind⟩
      rw [FrameStream.call_of_next? hnext] at h
      obtain rfl : item = .ok m := Option.some.inj h
      unfold FrameStream.next? at hnext
      split at hnext
      · cases hnext
      · split at hnext
        · next m' rest hread =>
            rcases (Frame.read_reads _ _ _).mp hread with ⟨_, _, body, _, hdecode⟩
            cases hnext
            exact ⟨body, hdecode⟩
        · cases hnext

theorem wellFormed_of_call {stream : FrameStream} {m : Message s}
    (h : (stream.call s limits).1 = some (.ok m)) {field : UnknownField}
    (hfield : field ∈ m.unknown) :
    field.WellFormed := by
  rcases decode_of_call h with ⟨body, hdecode⟩
  have hintact := Message.intact_of_decode hdecode
  cases s with
  | value => exact ((Value.within_iff.mp hintact).2.2 field hfield).wellFormed
  | composite => exact ((Composite.within_iff.mp hintact).2.2 field hfield).wellFormed
  | bits => exact ((Message.within_bits_iff.mp hintact).2 field hfield).wellFormed

/--
A dump of a stream prints its heading and the messages that the reader gives, one call after the
other and numbered from zero, each with its unknown fields and their payloads in two hexadecimal
digits a byte, as far as the first call that gives none.  When the input has ended there, the number
of the messages is printed and nothing has failed.  When a frame has failed, the failure names the
number of messages that are printed, and the position of the reader behind this frame.
-/
theorem dump_until_failure (s : Schema) (name : String) (limits : DecodeLimits) (input : Bytes) :
    let report := run { action := .dump s, input := name, delimited := true, limits } (.ok input)
    let after (n : Nat) := FrameStream.afterCalls s limits n ⟨input, false⟩
    ∃ messages : List (Message s),
      let shown := ["  Input                " ++ name,
        "  Size                 " ++ toString input.length ++ " bytes"] ++ numbered 0 messages
      (∀ i m, messages[i]? = some m → ((after i).call s limits).1 = some (.ok m)) ∧
      (∀ m ∈ messages, ∀ field ∈ m.unknown,
        if field.wireType = .lengthDelimited then Varint.Prefixed field.raw field.payload
        else field.payload = field.raw) ∧
      (((after messages.length).call s limits).1 = none ∧
          report.stdout = String.join (List.map (· ++ "\n")
            (shown ++ ["  Messages             " ++ toString messages.length])) ∧
          report.stderr = "" ∧ report.exitCode = 0 ∨
        ∃ error, ((after messages.length).call s limits).1 = some (.error error) ∧
          report.stdout = String.join (List.map (· ++ "\n") shown) ∧
          report.stderr = "error: " ++ frameFailure s messages.length
            ((after (messages.length + 1)).position input) error ++ "\n" ∧
          report.exitCode = 1) := by
  intro report after
  have hyields := FrameStream.yields_decodeAll (s := s) limits input
  rcases dumpItems_of_yields hyields input.length 0 with ⟨messages, hgiven, hend⟩
  have hname : entryLine "Input" name = "  Input                " ++ name := entryLine_eq rfl name
  have hsize : entryLine "Size" s!"{input.length} bytes" =
      "  Size                 " ++ toString input.length ++ " bytes" := by
    rw [entryLine_eq rfl, String.append_assoc]
    rfl
  have hcount (n : Nat) : entryLine "Messages" (toString n) =
      "  Messages             " ++ toString n := entryLine_eq rfl _
  have hreport : report =
      (dumpItems s input.length 0 (FrameStream.items s limits ⟨input, false⟩)).after
        ["  Input                " ++ name,
          "  Size                 " ++ toString input.length ++ " bytes"] := by
    show dump s _ input = _
    rw [dump, if_pos rfl, hname, hsize]
  rw [Nat.zero_add, hcount] at hend
  refine ⟨messages, hgiven, ?_, ?_⟩
  · intro m hm field hfield
    rcases List.mem_iff_getElem?.mp hm with ⟨i, hi⟩
    exact (wellFormed_of_call (hgiven i m hi) hfield).payload
  · rcases hend with ⟨hcall, hdump⟩ | ⟨error, hcall, hdump⟩
    · refine .inl ⟨hcall, ?_⟩
      rw [hreport, hdump, List.append_assoc]
      exact ⟨rfl, rfl, rfl⟩
    · refine .inr ⟨error, hcall, ?_⟩
      rw [hreport, hdump]
      exact ⟨rfl, rfl, rfl⟩

/-- A composite with an unknown field of each wire type, and a frame that is cut short. -/
theorem dump_until_failure_one_shown :
    let input : Bytes := [26, 0x0a, 2, 0x18, 1, 0x10, 5, 0x1a, 2, 0xab, 0x7f, 0x23, 0x24,
      0x2d, 1, 2, 3, 4, 0x31, 8, 9, 10, 11, 12, 13, 14, 15, 1, 0x0a, 7]
    let report := run { action := .dump .composite, input := "-", delimited := true } (.ok input)
    let lines := ["  Input                -", "  Size                 30 bytes", "",
      "[0] { pass }", "  unknown field 2 (Varint): 05", "  unknown field 3 (LengthDelimited): ab7f",
      "  unknown field 4 (StartGroup): 24", "  unknown field 5 (Fixed32): 01020304",
      "  unknown field 6 (Fixed64): 08090a0b0c0d0e0f"]
    report.stdout = String.join (List.map (· ++ "\n") lines) ∧
    report.stderr = "error: failed to decode ntt.Composite #1 before offset 29: " ++
      "unexpected end of input while reading ntt.Value\n" ∧ report.exitCode = 1 := by
  intro input report lines
  let shown : Composite := { values := [.ofScalar (.verdict .pass)], unknown := [.varint 2 5,
    .lengthDelimited 3 [0xab, 0x7f], ⟨4, .startGroup, [0x24]⟩, ⟨5, .fixed32, [1, 2, 3, 4]⟩,
    ⟨6, .fixed64, [8, 9, 10, 11, 12, 13, 14, 15]⟩] }
  let after (n : Nat) := FrameStream.afterCalls .composite {} n ⟨input, false⟩
  have hfirst : ((after 0).call .composite {}).1 = some (.ok shown) := rfl
  have hsecond : ((after 1).call .composite {}).1 = some (.error (.truncated "ntt.Value")) := rfl
  rcases dump_until_failure .composite "-" {} input with ⟨messages, hgiven, _, hend⟩
  -- The calls tell the messages: there is one, and behind it the frame that fails.
  have hmessages : messages = [shown] := by
    cases messages with
    | nil => rcases hend with ⟨hcall, _⟩ | ⟨_, hcall, _⟩ <;> cases hfirst.symm.trans hcall
    | cons m rest =>
        cases rest with
        | nil =>
            cases hfirst.symm.trans (hgiven 0 m rfl)
            rfl
        | cons m' rest => cases hsecond.symm.trans (hgiven 1 m' rfl)
  subst hmessages
  have hlines : ["  Input                " ++ "-",
      "  Size                 " ++ toString input.length ++ " bytes"] ++
      numbered (s := .composite) 0 [shown] = lines := by decide +kernel
  have hoffset : (after 2).position input = 29 := rfl
  rcases hend with ⟨hcall, _⟩ | ⟨error, hcall, hstdout, hstderr, hcode⟩
  · cases hsecond.symm.trans hcall
  · cases hsecond.symm.trans hcall
    refine ⟨?_, ?_, hcode⟩
    · rw [hstdout, hlines]
    · rw [hstderr]
      change "error: " ++ frameFailure .composite 1 ((after 2).position input) _ ++ _ = _
      rw [hoffset]
      rfl

end Inspect

end TestWire
