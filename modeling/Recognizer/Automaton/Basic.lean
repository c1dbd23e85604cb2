import Recognizer.Ascending
import Recognizer.Word

/-!
# Finite automata over labelled states and symbols

States and input symbols are strings.  An automaton lists both in strictly
ascending order and refers to them by position, so the whole value is canonical:
two automata with the same labels, marks and transitions are equal.

The transition function is total.  Every state has one row and every row has
one entry per symbol, which is the ascending list of destinations, possibly
empty.
-/

namespace Recognizer

/-- Whether several destinations are allowed for one state and symbol. -/
inductive Kind where
  | nondeterministic
  | deterministic
deriving DecidableEq

def Kind.name : Kind → String
  | .nondeterministic => "Nondeterministic"
  | .deterministic => "Deterministic"

/-- A state and symbol with more than one destination where at most one is
allowed. -/
structure DeterminismViolation where
  state : String
  symbol : String
  count : Nat
deriving DecidableEq

def DeterminismViolation.message (violation : DeterminismViolation) : String :=
  "DFA can't have more than one destination state in transitions, "
    ++ violation.state ++ " x " ++ violation.symbol ++ " has "
    ++ toString violation.count

/-- A finite automaton.  States and symbols are addressed by their position in
`states` and `alphabet`. -/
structure Automaton where
  kind : Kind
  /-- The state labels, strictly ascending. -/
  states : List String
  /-- The input symbols, strictly ascending. -/
  alphabet : List String
  /-- The position of the initial state. -/
  initial : Nat
  /-- The positions of the final states, strictly ascending. -/
  finals : List Nat
  /-- For every state its row: for every symbol the ascending destinations. -/
  rows : List (List (List Nat))
deriving DecidableEq

/-- The sum of some counts. -/
def total (counts : List Nat) : Nat :=
  counts.foldr (· + ·) 0

/-- A state and symbol together with their destinations. -/
structure Arc where
  state : Nat
  symbol : Nat
  destinations : List Nat
deriving DecidableEq

namespace Automaton

def stateLabel (automaton : Automaton) (state : Nat) : String :=
  automaton.states.getD state ""

def symbolLabel (automaton : Automaton) (symbol : Nat) : String :=
  automaton.alphabet.getD symbol ""

def stateIndex? (automaton : Automaton) (label : String) : Option Nat :=
  automaton.states.idxOf? label

def symbolIndex? (automaton : Automaton) (label : String) : Option Nat :=
  automaton.alphabet.idxOf? label

def initialLabel (automaton : Automaton) : String :=
  automaton.stateLabel automaton.initial

def isFinal (automaton : Automaton) (state : Nat) : Bool :=
  decide (state ∈ automaton.finals)

/-- The labels of the final states, in order. -/
def finalLabels (automaton : Automaton) : List String :=
  automaton.finals.map automaton.stateLabel

def destinations (automaton : Automaton) (state symbol : Nat) : List Nat :=
  (automaton.rows.getD state []).getD symbol []

def destinationLabels (automaton : Automaton) (state symbol : Nat) :
    List String :=
  (automaton.destinations state symbol).map automaton.stateLabel

def stateIndices (automaton : Automaton) : List Nat :=
  List.range automaton.states.length

def symbolIndices (automaton : Automaton) : List Nat :=
  List.range automaton.alphabet.length

/-- Every state and symbol with its destinations, by state and then by
symbol. -/
def entries (automaton : Automaton) : List Arc :=
  automaton.stateIndices.flatMap fun state =>
    automaton.symbolIndices.map fun symbol =>
      ⟨state, symbol, automaton.destinations state symbol⟩

/-- The entries that have a destination. -/
def arcs (automaton : Automaton) : List Arc :=
  automaton.entries.filter fun arc => !arc.destinations.isEmpty

/-- The number of (state, symbol, destination) triples. -/
def transitionCount (automaton : Automaton) : Nat :=
  total (automaton.rows.map fun row => total (row.map List.length))

/-- The number of triples that leave a state. -/
def outdegree (automaton : Automaton) (state : Nat) : Nat :=
  total ((automaton.rows.getD state []).map List.length)

/-- Whether every state and symbol has at most one destination. -/
def isDeterministic (automaton : Automaton) : Bool :=
  automaton.rows.all fun row => row.all fun entry => entry.length ≤ 1

/-- The first state and symbol, by state and then by symbol, with more than
one destination. -/
def violation? (automaton : Automaton) : Option DeterminismViolation :=
  (automaton.entries.find? fun arc => 1 < arc.destinations.length).map
    fun arc =>
      { state := automaton.stateLabel arc.state
        symbol := automaton.symbolLabel arc.symbol
        count := arc.destinations.length }

/-- The same automaton with other destinations for one state and symbol. -/
def setDestinations (automaton : Automaton) (state symbol : Nat)
    (destinations : List Nat) : Automaton :=
  { automaton with
    rows := automaton.rows.modify state fun row =>
      row.set symbol destinations }

theorem setDestinations_destinations (automaton : Automaton)
    (state symbol : Nat) :
    automaton.setDestinations state symbol
      (automaton.destinations state symbol) = automaton := by
  have unchanged : (automaton.rows.modify state fun row =>
      row.set symbol (automaton.destinations state symbol)) =
        automaton.rows := by
    apply List.ext_getElem?
    intro position
    rw [List.getElem?_modify]
    by_cases same : state = position
    · subst same
      cases found : automaton.rows[state]? with
      | none => simp
      | some row =>
          have entry : automaton.destinations state symbol =
              row.getD symbol [] := by
            simp [destinations, List.getD, found]
          simp only [Option.map_eq_map, Option.map_some, if_true, entry]
          congr 1
          apply List.ext_getElem?
          intro other
          rw [List.getElem?_set]
          by_cases sameSymbol : symbol = other
          · subst sameSymbol
            by_cases inRange : symbol < row.length
            · simp [inRange]
            · simp [inRange]
          · simp [sameSymbol]
    · simp [same]
  simp only [setDestinations, unchanged]

theorem setDestinations_setDestinations (automaton : Automaton)
    (state symbol : Nat) (first second : List Nat) :
    (automaton.setDestinations state symbol first).setDestinations state
        symbol second =
      automaton.setDestinations state symbol second := by
  have overwritten : ((automaton.rows.modify state fun row =>
      row.set symbol first).modify state fun row =>
        row.set symbol second) =
      automaton.rows.modify state fun row => row.set symbol second := by
    apply List.ext_getElem?
    intro position
    simp only [List.getElem?_modify]
    by_cases same : state = position
    · cases automaton.rows[position]? <;> simp [same]
    · simp [same]
  simp only [setDestinations, overwritten]

theorem destinations_setDestinations_of_ne (automaton : Automaton)
    {state symbol otherState otherSymbol : Nat} (destinations : List Nat)
    (different : state ≠ otherState ∨ symbol ≠ otherSymbol) :
    (automaton.setDestinations state symbol destinations).destinations
        otherState otherSymbol =
      automaton.destinations otherState otherSymbol := by
  simp only [Automaton.destinations, setDestinations, List.getD,
    List.getElem?_modify]
  by_cases same : state = otherState
  · subst same
    have differentSymbol : symbol ≠ otherSymbol :=
      different.resolve_left (· rfl)
    cases automaton.rows[state]? with
    | none => simp
    | some row => simp [differentSymbol]
  · simp [same]

/-- The shape that every operation of the library keeps: labels strictly
ascending, all positions in range, one entry for every state and symbol, every
entry strictly ascending, and at most one destination per entry when the kind
asks for it. -/
structure WellFormed (automaton : Automaton) : Prop where
  states_ascending : StrictlyAscending automaton.states
  alphabet_ascending : StrictlyAscending automaton.alphabet
  initial_lt : automaton.initial < automaton.states.length
  finals_ascending : StrictlyAscending automaton.finals
  finals_lt : ∀ state ∈ automaton.finals, state < automaton.states.length
  row_per_state : automaton.rows.length = automaton.states.length
  entry_per_symbol : ∀ row ∈ automaton.rows,
    row.length = automaton.alphabet.length
  entry_ascending : ∀ row ∈ automaton.rows, ∀ entry ∈ row,
    StrictlyAscending entry
  entry_lt : ∀ row ∈ automaton.rows, ∀ entry ∈ row, ∀ destination ∈ entry,
    destination < automaton.states.length
  entry_le_one : automaton.kind = .deterministic →
    ∀ row ∈ automaton.rows, ∀ entry ∈ row, entry.length ≤ 1

end Automaton

end Recognizer
