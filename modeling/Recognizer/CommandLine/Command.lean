import Recognizer.Automaton.Determinization
import Recognizer.CommandLine.Arguments
import Recognizer.Dataset.Testing

/-!
# Commands

There are three tools.  `automaton` creates and queries automata, `nfa2dfa`
makes them deterministic, and `dawg` learns them and measures how well they
classify words.  Every command line either gives a command or is misused.
-/

namespace Recognizer

/-- A command of one of the tools. -/
inductive Command where
  /-- Creates an automaton from the texts of a definition and stores it. -/
  | create (kind : Kind) (states symbols initial finals : String)
      (entries : List String) (output : String)
  /-- Shows a stored automaton and possibly whether it accepts a word. -/
  | load (deterministic : Bool) (file : String) (accept : Option String)
  /-- Makes a stored automaton deterministic. -/
  | convert (style : KeyStyle) (input output : String) (timed : Bool)
  /-- Learns an automaton from a training set and stores it. -/
  | train (trainingSet output : String) (workers : Nat) (timed : Bool)
  /-- Measures the accuracy of a stored automaton on a test set. -/
  | test (automaton testSet positiveLabel : String)
      (convertFirst timed : Bool)
deriving DecidableEq

namespace Command

/-- A number of at most 64 binary digits, with or without a plus sign. -/
def parseNumber? (text : String) : Option Nat :=
  let digits := match text.toList with
    | '+' :: digits => digits
    | digits => digits
  if digits.isEmpty || !digits.all Char.isDigit then none
  else
    let number := digits.foldl
      (fun number digit => 10 * number + (digit.toNat - '0'.toNat)) 0
    if number < Nat.pow 2 64 then some number else none

def automatonRules : ArgumentRules :=
  ⟨[.flag "deterministic"], 0, ["create", "load"]⟩

def createRules : ArgumentRules :=
  ⟨[.flag "deterministic", .valued "states", .valued "symbols",
      .valued "initial", .valued "final-states", .repeated "transition" 't',
      .valued "output"], 0, []⟩

def loadRules : ArgumentRules :=
  ⟨[.flag "deterministic", .valued "accept"], 1, []⟩

def convertRules : ArgumentRules :=
  ⟨[.valued "input", .valued "output", .flag "concatenated-keys",
      .flag "time"], 0, []⟩

def dawgRules : ArgumentRules :=
  ⟨[.flag "time"], 0, ["train", "test"]⟩

def trainRules : ArgumentRules :=
  ⟨[.flag "time", .valued "training-set", .valued "output",
      .valued "threads"], 0, []⟩

def testRules : ArgumentRules :=
  ⟨[.flag "time", .valued "automaton", .valued "test-set", .flag "dfa",
      .valued "positive-label"], 0, []⟩

/-- The command of `automaton create`; at least one transition is needed. -/
def ofCreate? (deterministic : Bool) (arguments : Arguments) :
    Option Command := do
  let states ← arguments.value? "states"
  let symbols ← arguments.value? "symbols"
  let initial ← arguments.value? "initial"
  let finals ← arguments.value? "final-states"
  let output ← arguments.value? "output"
  let entries := arguments.values "transition"
  let kind : Kind :=
    if deterministic then .deterministic else .nondeterministic
  if entries.isEmpty then none
  else some (.create kind states symbols initial finals entries output)

def ofLoad? (deterministic : Bool) (arguments : Arguments) :
    Option Command := do
  let file ← arguments.operands.head?
  return .load deterministic file (arguments.value? "accept")

def ofConvert? (arguments : Arguments) : Option Command := do
  let input ← arguments.value? "input"
  let output ← arguments.value? "output"
  let style : KeyStyle :=
    if arguments.has "concatenated-keys" then .concatenated else .separated
  return .convert style input output (arguments.has "time")

/-- The command of `dawg train`, with one worker unless told otherwise. -/
def ofTrain? (timed : Bool) (arguments : Arguments) : Option Command := do
  let trainingSet ← arguments.value? "training-set"
  let output ← arguments.value? "output"
  let workers ← parseNumber? ((arguments.value? "threads").getD "1")
  return .train trainingSet output workers timed

def ofTest? (timed : Bool) (arguments : Arguments) : Option Command := do
  let automaton ← arguments.value? "automaton"
  let testSet ← arguments.value? "test-set"
  let positiveLabel :=
    (arguments.value? "positive-label").getD TestSet.defaultPositiveLabel
  return .test automaton testSet positiveLabel (arguments.has "dfa") timed

/-- The command of a tool with subcommands.  The flag may stand in front of the
subcommand or behind it. -/
def ofSubcommand? (rules : ArgumentRules) (flag : String)
    (command? : String → Option (ArgumentRules × (Bool → Arguments → Option Command)))
    (arguments : List String) : Option Command := do
  let outer ← Arguments.parse? rules arguments
  let (name, rest) ← outer.subcommand
  let (innerRules, finish) ← command? name
  let inner ← Arguments.parse? innerRules rest
  finish (outer.has flag || inner.has flag) inner

/-- The subcommands of `automaton`. -/
def automatonSubcommand? :
    String → Option (ArgumentRules × (Bool → Arguments → Option Command))
  | "create" => some (createRules, ofCreate?)
  | "load" => some (loadRules, ofLoad?)
  | _ => none

/-- The subcommands of `dawg`. -/
def dawgSubcommand? :
    String → Option (ArgumentRules × (Bool → Arguments → Option Command))
  | "train" => some (trainRules, ofTrain?)
  | "test" => some (testRules, ofTest?)
  | _ => none

def parse? (tool : String) (arguments : List String) : Option Command :=
  match tool with
  | "automaton" =>
      ofSubcommand? automatonRules "deterministic" automatonSubcommand?
        arguments
  | "nfa2dfa" => (Arguments.parse? convertRules arguments).bind ofConvert?
  | "dawg" => ofSubcommand? dawgRules "time" dawgSubcommand? arguments
  | _ => none

/-- How the tools are used. -/
def usage : String :=
  "\n".intercalate
    ["automaton [--deterministic] create --states LIST --symbols LIST"
        ++ " --initial STATE --final-states LIST -t ENTRY... --output FILE",
      "automaton [--deterministic] load FILE [--accept WORD]",
      "nfa2dfa --input FILE --output FILE [--concatenated-keys] [--time]",
      "dawg [--time] train --training-set FILE --output FILE"
        ++ " [--threads NUMBER]",
      "dawg [--time] test --automaton FILE --test-set FILE [--dfa]"
        ++ " [--positive-label LABEL]"]

end Command

end Recognizer
