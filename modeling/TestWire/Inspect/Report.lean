import TestWire.Inspect.Command
import TestWire.Inspect.Tally
import TestWire.Message.Frame

/-! # Reports -/

namespace TestWire

namespace Inspect

structure Report where
  lines : List String := []
  failure : Option String := none

namespace Report

def after (lines : List String) (report : Report) : Report :=
  { report with lines := lines ++ report.lines }

def stdout (report : Report) : String :=
  String.join (report.lines.map (· ++ "\n"))

def stderr (report : Report) : String :=
  match report.failure with
  | some failure => "error: " ++ failure ++ "\n"
  | none => ""

def exitCode (report : Report) : UInt32 :=
  if report.failure.isSome then 1 else 0

end Report

def entryLine (key value : String) : String :=
  "  " ++ key ++ String.ofList (List.replicate (20 - key.length) ' ') ++ " " ++ value

def unknownLine (field : UnknownField) : String :=
  s!"  unknown field {field.number} ({field.wireType.name}): {field.payload.hex}"

def messageLines {s : Schema} (index : Option Nat) (m : Message s) : List String :=
  let text :=
    match index with
    | some i => s!"[{i}] {m.render}"
    | none => m.render
  "" :: text :: m.unknown.map unknownLine

def dumpItems (s : Schema) (size : Nat) :
    Nat → List (Except DecodeError (Message s) × FrameStream) → Report
  | count, [] => { lines := [entryLine "Messages" (toString count)] }
  | count, (.ok m, _) :: items =>
      (dumpItems s size (count + 1) items).after (messageLines (some count) m)
  | count, (.error error, behind) :: _ =>
      let offset := size - behind.unread.length
      { failure := some
          s!"failed to decode {s.name} #{count} before offset {offset}: {error.message}" }

def dump (s : Schema) (command : Command) (input : Bytes) : Report :=
  let heading :=
    [entryLine "Input" command.input, entryLine "Size" s!"{input.length} bytes"]
  let body : Report :=
    if command.delimited then
      dumpItems s input.length 0 (FrameStream.items s command.limits ⟨input, false⟩)
    else
      match Message.decode s command.limits input with
      | .ok m => { lines := messageLines none m }
      | .error error => { failure := some s!"failed to decode {s.name}: {error.message}" }
  body.after heading

def tallyLines (tally : Tally) : List String :=
  (tally.counts.map fun (ordinal, count) =>
    entryLine (Verdict.ofOrdinal ordinal).render (toString count)) ++
  [entryLine "total" (toString tally.total), entryLine "overall" tally.overall.render]

/-- Adds the values of a stream to a tally, unless one of them, counted from `index`, fails. -/
def tallyItems : Nat → Tally → List (Except DecodeError (Message .value) × FrameStream) →
    Except String Tally
  | _, tally, [] => .ok tally
  | index, tally, (.ok v, _) :: items => tallyItems (index + 1) (tally.add v) items
  | index, _, (.error error, _) :: _ =>
      .error s!"failed to decode value #{index}: {error.message}"

def verdicts (command : Command) (input : Bytes) : Report :=
  let tally : Except String Tally :=
    if command.delimited then
      tallyItems 0 {} (FrameStream.items .value command.limits ⟨input, false⟩)
    else
      match Message.decode .value command.limits input with
      | .ok v => .ok (Tally.add {} v)
      | .error error => .error s!"failed to decode value: {error.message}"
  match tally with
  | .ok tally => { lines := tallyLines tally }
  | .error failure => { failure := some failure }

def run (command : Command) (input : Except String Bytes) : Report :=
  match input with
  | .ok input =>
      match command.action with
      | .dump s => dump s command input
      | .verdicts => verdicts command input
  | .error reason =>
      let source := if command.input = "-" then "stdin" else command.input
      { failure := some s!"failed to read {source}: {reason}" }

/-- Runs a command on standard input, when that is what it names, or on the file of that name. -/
def runAt {m : Type → Type} [Monad m] (standardInput : m (Except String Bytes))
    (readFile : String → m (Except String Bytes)) (command : Command) : m Report := do
  let input ← if command.input = "-" then standardInput else readFile command.input
  return run command input

end Inspect

end TestWire
