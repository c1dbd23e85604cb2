import Recognizer.Automaton.Rendering
import Recognizer.CommandLine.Command
import Recognizer.Dataset.Training
import Recognizer.Definition
import Recognizer.Learning.Training
import Recognizer.Percentage
import Recognizer.Snapshot.Document

/-!
# Carrying out commands

Carrying a command out reads files and gives an outcome: an exit code, the
lines to be shown, and possibly a file to be written.  A command that fails
shows nothing and writes nothing; it only says why.  Times are measured where
the outcome is put into effect, so lines with times only say what was measured.
-/

namespace Recognizer

/-- Why a command failed. -/
inductive CommandFault where
  | missingFile (path : String)
  | definition (fault : DefinitionFault)
  | automaton (fault : DraftFault)
  | document (fault : DocumentFault)
  | trainingSet (fault : ReadFault)
  | testSet (fault : TestSetFault)
  | learning (fault : LearningFault)
  /-- The automaton is not deterministic where that is asked for. -/
  | determinism (violation : DeterminismViolation)
  | notWritten (path : String)
deriving DecidableEq

def CommandFault.message : CommandFault → String
  | .missingFile path => "There is no file " ++ path
  | .definition fault => fault.message
  | .automaton fault => fault.message
  | .document fault => fault.message
  | .trainingSet fault => fault.message
  | .testSet fault => fault.message
  | .learning fault => fault.message
  | .determinism violation => violation.message
  | .notWritten path => "The file " ++ path ++ " cannot be written"

/-- A line of output. -/
inductive OutputLine where
  | text (line : String)
  /-- A label and the time that was measured, divided by a number. -/
  | elapsed (label : String) (divisor : Nat)
deriving DecidableEq

/-- A file to be written. -/
structure FileContent where
  path : String
  bytes : List UInt8
deriving DecidableEq

/-- What a command comes to. -/
structure Outcome where
  exitCode : Nat
  lines : List OutputLine
  file : Option FileContent
  /-- The phases that were measured and are to be reported. -/
  phases : List String
  /-- What went wrong. -/
  complaint : Option String
deriving DecidableEq

namespace Outcome

/-- Nothing but lines, and an exit code. -/
def showing (exitCode : Nat) (lines : List OutputLine)
    (phases : List String) : Outcome :=
  ⟨exitCode, lines, none, phases, none⟩

/-- A file, and lines to be shown once it is written. -/
def storing (path : String) (automaton : Automaton)
    (lines : List OutputLine) (phases : List String) : Outcome :=
  ⟨0, lines, some ⟨path, automaton.write⟩, phases, none⟩

/-- A command line that gives no command. -/
def misuse : Outcome :=
  ⟨2, [], none, [], some Command.usage⟩

/-- A command that failed. -/
def failure (fault : CommandFault) : Outcome :=
  ⟨1, [], none, [], some fault.message⟩

end Outcome

namespace Command

variable (readFile : String → Option (List UInt8))

/-- The bytes of a file as a source. -/
def openFile (path : String) : Except CommandFault ByteSource :=
  match readFile path with
  | some bytes => .ok (.ofBytes bytes)
  | none => .error (.missingFile path)

/-- The automaton stored in a file. -/
def loadAutomaton (path : String) : Except CommandFault Automaton := do
  let source ← openFile readFile path
  (Automaton.read source).mapError .document

/-- Creates an automaton, stores it and shows it. -/
def runCreate (kind : Kind) (states symbols initial finals : String)
    (entries : List String) (output : String) :
    Except CommandFault Outcome := do
  let definition ←
    (Definition.parse states symbols initial finals entries).mapError
      .definition
  let automaton ← (definition.toAutomaton kind).mapError .automaton
  return .storing output automaton [.text automaton.render] []

/-- The verdict on a word. -/
def verdict (accepted : Bool) : String :=
  if accepted then "Accepted" else "Rejected"

/-- Shows an automaton and, for a word, the verdict. -/
def showAutomaton (automaton : Automaton) (accept : Option String) :
    Outcome :=
  let table := .text automaton.render
  match accept with
  | none => .showing 0 [table] []
  | some word =>
      let accepted := automaton.acceptsText word
      .showing (if accepted then 0 else 1)
        [table, .text (verdict accepted)] []

/-- Shows a stored automaton, which may have to be deterministic. -/
def runLoad (deterministic : Bool) (file : String)
    (accept : Option String) : Except CommandFault Outcome := do
  let automaton ← loadAutomaton readFile file
  match deterministic, automaton.violation? with
  | true, some violation => .error (.determinism violation)
  | _, _ => return showAutomaton automaton accept

/-- Makes a stored automaton deterministic and stores the result. -/
def runConvert (style : KeyStyle) (input output : String) (timed : Bool) :
    Except CommandFault Outcome := do
  let automaton ← loadAutomaton readFile input
  let conversion ← (automaton.determinize style).mapError .automaton
  return .storing output conversion.automaton []
    (if timed then ["conversion"] else [])

/-- Learns an automaton and stores it. -/
def runTrain (trainingSet output : String) (workers : Nat) (timed : Bool) :
    Except CommandFault Outcome := do
  let source ← openFile readFile trainingSet
  let set ← (TrainingSet.read source).mapError .trainingSet
  let training ←
    (Training.ofTexts workers set.positive set.negative).mapError .learning
  return .storing output training.automaton []
    (if timed then ["train"] else [])

/-- The number of words that are accepted exactly if they should be. -/
def correctCount (automaton : Automaton) (words : List LabeledWord) : Nat :=
  words.countP fun labeled =>
    automaton.acceptsText labeled.word == labeled.positive

/-- What is shown about the words of a test set, if there are any. -/
def report (automaton : Automaton) (words : List LabeledWord) :
    Nat × List OutputLine :=
  if words.isEmpty then (1, [.text "The test set contains no words"])
  else
    let accuracy := percentage (correctCount automaton words) words.length
    (0,
      [.text ("Accuracy: " ++ accuracy ++ "%"), .elapsed "Total time" 1,
        .elapsed "Average time" words.length])

/-- Measures the accuracy of a stored automaton, which may have to be made
deterministic first. -/
def runTest (automatonFile testSet positiveLabel : String)
    (convertFirst timed : Bool) : Except CommandFault Outcome := do
  let stored ← loadAutomaton readFile automatonFile
  let source ← openFile readFile testSet
  let words ← (TestSet.read positiveLabel source).mapError .testSet
  let automaton ←
    if convertFirst then stored.toDeterministic.mapError .automaton
    else .ok stored
  let conversion :=
    if convertFirst then [.elapsed "DFA conversion time" 1] else []
  let (exitCode, lines) := report automaton words
  return .showing exitCode (conversion ++ lines)
    (if timed && convertFirst && exitCode == 0 then ["conversion"] else [])

/-- Carries out a command, or tells why it fails. -/
def execute : Command → Except CommandFault Outcome
  | .create kind states symbols initial finals entries output =>
      runCreate kind states symbols initial finals entries output
  | .load deterministic file accept =>
      runLoad readFile deterministic file accept
  | .convert style input output timed =>
      runConvert readFile style input output timed
  | .train trainingSet output workers timed =>
      runTrain readFile trainingSet output workers timed
  | .test automaton testSet positiveLabel convertFirst timed =>
      runTest readFile automaton testSet positiveLabel convertFirst timed

/-- Carries out a command. -/
def run (command : Command) : Outcome :=
  match command.execute readFile with
  | .ok outcome => outcome
  | .error fault => .failure fault

/-- The files that a command reads. -/
def inputs : Command → List String
  | .create .. => []
  | .load _ file _ => [file]
  | .convert _ input _ _ => [input]
  | .train trainingSet _ _ _ => [trainingSet]
  | .test automaton testSet _ _ _ => [automaton, testSet]

end Command

end Recognizer
