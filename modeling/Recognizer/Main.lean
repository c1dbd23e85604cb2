import Recognizer.CommandLine.Execution
import Recognizer.PhaseLog

/-!
# The program

The first argument names the tool and the others are its arguments.  The
files that a command reads are loaded first, then the command is carried out,
the file that it makes is written, and its lines are shown.  Nothing is decided
here.
-/

namespace Recognizer

/-- Digits with zeros in front, up to a number of places. -/
def padded (places number : Nat) : String :=
  let digits := toString number
  String.ofList (List.replicate (places - digits.length) '0') ++ digits

/-- A time in seconds with six places. -/
def writeSeconds (nanoseconds : Nat) : String :=
  let microseconds := nanoseconds / 1000
  toString (microseconds / 1000000) ++ "."
    ++ padded 6 (microseconds % 1000000) ++ "s"

/-- A line of output, given the time that was measured. -/
def OutputLine.show (nanoseconds : Nat) : OutputLine → String
  | .text line => line
  | .elapsed label divisor =>
      label ++ ": " ++ writeSeconds (nanoseconds / divisor)

/-- The bytes of a file, if it can be read. -/
def readFile? (path : String) : IO (Option (List UInt8)) := do
  try
    let bytes ← IO.FS.readBinFile path
    return some bytes.data.toList
  catch _ =>
    return none

/-- Writes a file and tells whether that was possible. -/
def writeFile (file : FileContent) : IO Bool := do
  try
    IO.FS.writeBinFile file.path ⟨file.bytes.toArray⟩
    return true
  catch _ =>
    return false

/-- The files that can be read of those that a command needs. -/
def readInputs (paths : List String) : IO (List FileContent) :=
  paths.filterMapM fun path => do
    return (← readFile? path).map fun bytes => ⟨path, bytes⟩

/-- Shows an outcome and gives its exit code. -/
def report (outcome : Outcome) (nanoseconds : Nat) : IO UInt32 := do
  for line in outcome.lines do
    IO.println (line.show nanoseconds)
  for phase in outcome.phases do
    IO.eprintln ("Time " ++ phase ++ ": " ++ writeSeconds nanoseconds)
  for complaint in outcome.complaint do
    IO.eprintln complaint
  return outcome.exitCode.toUInt32

/-- Carries out a command and gives its exit code.  The outcome passes through
a reference, so that it is there before the clock is read again. -/
def runCommand (command : Command) : IO UInt32 := do
  let files ← readInputs command.inputs
  let stopwatch := Stopwatch.start "run" (← IO.monoNanosNow)
  let cell ← IO.mkRef <| command.run fun path =>
    (files.find? (·.path == path)).map (·.bytes)
  let (log, _) := PhaseLog.empty.stop stopwatch (← IO.monoNanosNow)
  let nanoseconds := total (log.measurements.map (·.nanoseconds))
  let outcome ← cell.get
  match outcome.file with
  | none => report outcome nanoseconds
  | some file =>
      if ← writeFile file then report outcome nanoseconds
      else report (.failure (.notWritten file.path)) nanoseconds

end Recognizer

/-- Runs the tool that the first argument names. -/
def main (arguments : List String) : IO UInt32 :=
  match arguments with
  | [] => Recognizer.report .misuse 0
  | tool :: rest =>
      match Recognizer.Command.parse? tool rest with
      | none => Recognizer.report .misuse 0
      | some command => Recognizer.runCommand command
