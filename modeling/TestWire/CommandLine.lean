import TestWire.Inspect.Command

/-! # Command lines -/

namespace TestWire

namespace CommandLine

open Inspect

structure Arguments where
  action : Option Action := none
  input : Option String := none
  delimited : Bool := false
  limits : DecodeLimits := {}

namespace Arguments

def kindOf? (text : String) : Option Schema :=
  if text = "value" then some .value
  else if text = "composite" then some .composite
  else if text = "bitstring" then some .bits
  else none

/-- Unsigned 64-bit numbers, in decimal digits behind an optional plus sign. -/
def sizeOf? (text : String) : Option Nat :=
  let digits :=
    match text.toList with
    | '+' :: digits => digits
    | digits => digits
  if digits.all Char.isDigit then (String.ofList digits).toNat?.filter (· < UInt64.size) else none

def withOption? (arguments : Arguments) (option value : String) : Option Arguments := do
  let action ← arguments.action
  if option = "--max-depth" then
    return { arguments with limits.maxDepth := (← sizeOf? value) }
  else if option = "--max-size" then
    return { arguments with limits.maxSize := (← sizeOf? value) }
  else
    match option, action with
    | "--kind", .dump _ => return { arguments with action := some (.dump (← kindOf? value)) }
    | _, _ => none

def withOperand? (arguments : Arguments) (text : String) : Option Arguments :=
  match arguments.action, arguments.input with
  | none, _ =>
      if text = "dump" then some { arguments with action := some (.dump .value) }
      else if text = "verdicts" then some { arguments with action := some .verdicts }
      else none
  | some _, none => some { arguments with input := some text }
  | some _, some _ => none

/-- Options that ask for more log output; there is none. -/
def isVerbosity (text : String) : Bool :=
  text == "--verbose" ||
    match text.toList with
    | '-' :: 'v' :: others => others.all (· == 'v')
    | _ => false

def assignment? (text : String) : Option (String × String) :=
  let option := text.toList.takeWhile (· ≠ '=')
  match text.toList.drop option.length with
  | _ :: value => some (String.ofList option, String.ofList value)
  | [] => none

def read (arguments : Arguments) : List String → Except String Arguments
  | [] => .ok arguments
  | "--" :: texts =>
      texts.foldlM (fun arguments text => (arguments.withOperand? text).elim (.error text) .ok)
        arguments
  | "--delimited" :: texts =>
      if arguments.action.isSome then read { arguments with delimited := true } texts
      else .error "--delimited"
  | text :: texts =>
      if isVerbosity text then
        read arguments texts
      else if text.startsWith "--" then
        match assignment? text with
        | some (option, value) =>
            match arguments.withOption? option value with
            | some arguments => read arguments texts
            | none => .error text
        | none =>
            match texts with
            | [] => .error text
            | value :: texts =>
                match arguments.withOption? text value with
                | some arguments => read arguments texts
                | none => .error text
      else
        match arguments.withOperand? text with
        | some arguments => read arguments texts
        | none => .error text

end Arguments

/-- The command that a command line spells, or the argument that is wrong or missing. -/
def parse (texts : List String) : Except String Command := do
  let arguments ← Arguments.read {} texts
  match arguments.action, arguments.input with
  | some action, some input =>
      return { action, input, delimited := arguments.delimited, limits := arguments.limits }
  | none, _ => .error "<COMMAND>"
  | some _, none => .error "<INPUT>"

end CommandLine

end TestWire
