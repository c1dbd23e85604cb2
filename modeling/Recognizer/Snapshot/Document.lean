import Recognizer.Json.Value
import Recognizer.Snapshot.Basic
import Recognizer.Text.Lines

/-!
# Stored snapshots

A snapshot is stored as a JSON document.  A record is an object with its fields
in any order, each exactly once; fields that the record does not have are
skipped.  It may also be given as the array of its field values in their fixed
order.  The kind is its name, or an object whose only key is the name and whose
value is null.
-/

namespace Recognizer

/-- Why no automaton could be read from a document. -/
inductive DocumentFault where
  /-- The source fails, or its bytes are not a JSON document of the right
  shape. -/
  | malformed
  | automaton (fault : DraftFault)
deriving DecidableEq

def DocumentFault.message : DocumentFault → String
  | .malformed => "Invalid automaton snapshot"
  | .automaton fault => fault.message

namespace Json.Value

def text? : Value → Option String
  | .string literal => literal.text?
  | _ => none

def texts? : Value → Option (List String)
  | .array items => items.mapM text?
  | _ => none

/-- The values of the named fields, in the order of the names. -/
def record? (names : List String) : Value → Option (List Value)
  | .array items => if items.length = names.length then some items else none
  | .object members => do
      let named ← members.mapM fun member =>
        member.1.text?.map fun name => (name, member.2)
      names.mapM fun name =>
        match named.filter (fun member => member.1 == name) with
        | [member] => some member.2
        | _ => none
  | _ => none

def ofText (text : String) : Value :=
  .string (Literal.ofText text)

def ofTexts (texts : List String) : Value :=
  .array (texts.map ofText)

def ofFields (fields : List (String × Value)) : Value :=
  .object (fields.map fun field => (Literal.ofText field.1, field.2))

end Json.Value

open Json (Value)

def Kind.ofName? (name : String) : Option Kind :=
  if name = Kind.nondeterministic.name then some .nondeterministic
  else if name = Kind.deterministic.name then some .deterministic
  else none

/-- The kind that a value gives. -/
def Kind.ofValue? : Value → Option Kind
  | .string name => name.text?.bind Kind.ofName?
  | .object [(name, .null)] => name.text?.bind Kind.ofName?
  | _ => none

namespace Transition

/-- The names of the fields of an entry, in their fixed order. -/
def fieldNames : List String :=
  ["origin", "symbol", "destinations"]

/-- An entry as a value. -/
def toValue (transition : Transition) : Value :=
  .ofFields
    [("origin", .ofText transition.origin),
      ("symbol", .ofText transition.symbol),
      ("destinations", .ofTexts transition.destinations)]

/-- The entry that a value gives. -/
def ofValue? (value : Value) : Option Transition :=
  match value.record? fieldNames with
  | some [origin, symbol, destinations] => do
      return {
        origin := ← origin.text?
        symbol := ← symbol.text?
        destinations := ← destinations.texts? }
  | _ => none

end Transition

namespace Snapshot

/-- The names of the fields of a snapshot, in their fixed order. -/
def fieldNames : List String :=
  ["kind", "states", "alphabet", "initial_state", "final_states",
    "transitions"]

/-- A snapshot as a value. -/
def toValue (snapshot : Snapshot) : Value :=
  .ofFields
    [("kind", .ofText snapshot.kind.name),
      ("states", .ofTexts snapshot.states),
      ("alphabet", .ofTexts snapshot.alphabet),
      ("initial_state", .ofText snapshot.initial),
      ("final_states", .ofTexts snapshot.finals),
      ("transitions", .array (snapshot.transitions.map Transition.toValue))]

/-- The entries that a value gives. -/
def transitionsOfValue? : Value → Option (List Transition)
  | .array items => items.mapM Transition.ofValue?
  | _ => none

/-- The snapshot that a value gives. -/
def ofValue? (value : Value) : Option Snapshot :=
  match value.record? fieldNames with
  | some [kind, states, alphabet, initial, finals, transitions] => do
      return {
        kind := ← Kind.ofValue? kind
        states := ← states.texts?
        alphabet := ← alphabet.texts?
        initial := ← initial.text?
        finals := ← finals.texts?
        transitions := ← transitionsOfValue? transitions }
  | _ => none

def write (snapshot : Snapshot) : List UInt8 :=
  snapshot.toValue.write 0

def read? (bytes : List UInt8) : Option Snapshot :=
  (Value.ofBytes? bytes).bind ofValue?

end Snapshot

namespace Automaton

def write (automaton : Automaton) : List UInt8 :=
  automaton.snapshot.write

/-- The automaton of a document.  The document is read to its end, so a source
that fails gives none. -/
def read (source : ByteSource) : Except DocumentFault Automaton :=
  if source.fails then .error .malformed
  else
    match Snapshot.read? source.bytes with
    | none => .error .malformed
    | some snapshot => snapshot.restore.mapError .automaton

end Automaton

end Recognizer
