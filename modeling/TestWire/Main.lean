import TestWire.CommandLine
import TestWire.Inspect.Report

/-! # The inspector -/

namespace TestWire

namespace CommandLine

open Inspect

/-- What the operating system says of a failure, and its number, which may come negated. -/
def failureText : IO.Error → String
  | .noFileOrDirectory _ code details
  | .permissionDenied _ code details
  | .inappropriateType _ code details
  | .invalidArgument _ code details =>
      s!"{details.capitalize} (os error {code.toInt32.toInt.natAbs})"
  | error => toString error

partial def readAll (stream : IO.FS.Stream) (taken : ByteArray) : IO ByteArray := do
  let chunk ← stream.read 65536
  if chunk.isEmpty then
    return taken
  else
    readAll stream (taken ++ chunk)

def readBytes (read : IO ByteArray) : IO (Except String Bytes) := do
  try
    return .ok (← read).data.toList
  catch error =>
    return .error (failureText error)

def program (arguments : List String) : IO UInt32 := do
  match parse arguments with
  | .error argument =>
      IO.eprintln s!"error: argument '{argument}' is missing or not expected"
      return 2
  | .ok command =>
      let standardInput := readBytes do readAll (← IO.getStdin) .empty
      let report ← runAt standardInput (readBytes <| IO.FS.readBinFile ·) command
      IO.print report.stdout
      IO.eprint report.stderr
      return report.exitCode

end CommandLine

end TestWire

def main (arguments : List String) : IO UInt32 :=
  TestWire.CommandLine.program arguments
