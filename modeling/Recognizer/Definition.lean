import Recognizer.Automaton.Draft
import Recognizer.Text.Labels
import Recognizer.Text.Pattern

/-!
# Definitions of automata

An automaton may be defined by five texts: its states, symbols and final states
as lists of labels, its initial state, and entries of the form
`origin-symbol-destination,destination`.  Every text has to give something.
-/

namespace Recognizer

/-- A part of a definition that must not be empty. -/
inductive DefinitionField where
  | states
  | symbols
  | finals
  | initial
  | transitions
deriving DecidableEq

def DefinitionField.name : DefinitionField → String
  | .states => "states"
  | .symbols => "input symbols"
  | .finals => "final states"
  | .initial => "initial state"
  | .transitions => "transitions"

/-- Why a text is no definition. -/
inductive DefinitionFault where
  | invalidTransition (entry : String)
  | missingField (field : DefinitionField)
deriving DecidableEq

def DefinitionFault.message : DefinitionFault → String
  | .invalidTransition entry =>
      "Invalid transition " ++ entry
        ++ ", expected <origin>-<symbol>-<destination>,..."
  | .missingField field => "The " ++ field.name ++ " must be provided"

namespace Transition

/-! ## The pattern of an entry -/

/-- A label without hyphens and blank characters, as a group. -/
def labelPattern (number : Nat) : Pattern :=
  .group number (.atLeastOnce (.one (.outside [.literal '-', .blank])))

/-- What is left of an entry behind both hyphens, as a group. -/
def restPattern (number : Nat) : Pattern :=
  .group number (.atLeastOnce (.one (.outside [.literal '-'])))

/-- Two labels, each with blank characters around it and a hyphen behind it, and
the rest: `^\s*([^-\s]+)\s*-\s*([^-\s]+)\s*-([^-]+)$`. -/
def entryPattern : Pattern :=
  .sequence
    [ .padded (labelPattern 1), .literal '-',
      .padded (labelPattern 2), .literal '-', restPattern 3 ]

/-! ## The reader of entries -/

/-- Whether a character may stand in the origin or the symbol of an entry. -/
def isEntryCharacter (character : Char) : Bool :=
  character != '-' && !Text.isBlank character

/-- The label up to the next hyphen, and what is behind the hyphen.  Blank
characters may stand on both sides of the label, but not inside. -/
def entryLabel? (characters : List Char) :
    Option (List Char × List Char) :=
  let begun := Text.skipBlank characters
  let label := begun.takeWhile isEntryCharacter
  match Text.skipBlank (begun.dropWhile isEntryCharacter) with
  | '-' :: later => if label.isEmpty then none else some (label, later)
  | _ => none

/-- The origin and the symbol of an entry, and the rest, which must not be empty
or have a hyphen. -/
def entryParts? (characters : List Char) :
    Option (List Char × List Char × List Char) :=
  match entryLabel? characters with
  | none => none
  | some (origin, later) =>
      match entryLabel? later with
      | none => none
      | some (symbol, rest) =>
          if rest.isEmpty || rest.contains '-' then none
          else some (origin, symbol, rest)

/-- The transition that an entry describes.  The rest lists its destinations, of
which there is at least one. -/
def ofEntry? (entry : String) : Option Transition :=
  match entryParts? entry.toList with
  | none => none
  | some (origin, symbol, rest) =>
      match Text.labels rest with
      | [] => none
      | destination :: others =>
          some
            { origin := String.ofList origin
              symbol := String.ofList symbol
              destinations := destination :: others }

/-- The transition of an entry, or the entry as a fault. -/
def ofEntry (entry : String) : Except DefinitionFault Transition :=
  match ofEntry? entry with
  | some transition => .ok transition
  | none => .error (.invalidTransition entry)

end Transition

/-- A definition whose texts have been taken apart. -/
structure Definition where
  states : List String
  symbols : List String
  initial : String
  finals : List String
  transitions : List Transition
deriving DecidableEq

namespace Definition

/-- A list that must not be empty. -/
def required {α : Type} (field : DefinitionField) (values : List α) :
    Except DefinitionFault (List α) :=
  if values.isEmpty then .error (.missingField field) else .ok values

/-- A label that must not be blank. -/
def requiredLabel (field : DefinitionField) (text : String) :
    Except DefinitionFault String :=
  let label := Text.trim text
  if label = "" then .error (.missingField field) else .ok label

/-- Takes the texts of a definition apart.  The states are looked at first,
then the symbols, the final states, the initial state and every entry. -/
def parse (states symbols initial finals : String) (entries : List String) :
    Except DefinitionFault Definition := do
  let states ← required .states (Text.labelsOf states)
  let symbols ← required .symbols (Text.labelsOf symbols)
  let finals ← required .finals (Text.labelsOf finals)
  let initial ← requiredLabel .initial initial
  let transitions ← entries.mapM Transition.ofEntry
  let transitions ← required .transitions transitions
  return { states, symbols, initial, finals, transitions }

/-- What a definition declares; a later entry for the same origin and symbol
replaces an earlier one. -/
def declarations (definition : Definition) : List Declaration :=
  .states definition.states
    :: .alphabet definition.symbols
    :: .initial definition.initial
    :: .finals definition.finals
    :: definition.transitions.map .transition

def toAutomaton (definition : Definition) (kind : Kind) :
    Except DraftFault Automaton :=
  (Draft.ofDeclarations definition.declarations).build kind

end Definition

end Recognizer
