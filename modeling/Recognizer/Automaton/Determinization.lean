import Recognizer.Automaton.Acceptance
import Recognizer.Automaton.Draft

/-!
# Determinization by subsets

The deterministic automaton has one state for every key of a set of states
that some word leads to.  Subsets are discovered breadth first, with the
symbols in alphabet order, and the first subset with a key represents it.  The
keys in ascending order are then named `s0`, `s1` and so on.

With separated keys the key of a subset is the list of its labels, which no
other subset has.  With concatenated keys it is the labels joined without a
separator, and subsets that share a key become one state.
-/

namespace Recognizer

/-- How a subset is identified. -/
inductive KeyStyle where
  /-- By the list of its labels. -/
  | separated
  /-- By its labels joined into one text. -/
  | concatenated
deriving DecidableEq

/-- A deterministic automaton together with the labels of the subset that
every state `s0`, `s1`, ... stands for. -/
structure Determinization where
  automaton : Automaton
  subsets : List (List String)
deriving DecidableEq

namespace Subset

variable (key : List Nat → List String)

/-- The candidates whose key is new: neither that of a known subset nor that
of an earlier candidate. -/
def unseen (known : List (List Nat)) : List (List Nat) → List (List Nat)
  | [] => []
  | candidate :: later =>
      if known.any (fun subset => key subset == key candidate) then
        unseen known later
      else
        candidate :: unseen (known ++ [candidate]) later

/-- Breadth first search: the subset waiting longest is explored next, and its
new successors wait behind all others.  The result lists the subsets in the
order of their discovery. -/
def exploreFrom (successors : List Nat → List (List Nat)) :
    Nat → List (List Nat) → List (List Nat) → List (List Nat)
  | 0, explored, waiting => explored ++ waiting
  | _ + 1, explored, [] => explored
  | fuel + 1, explored, subset :: waiting =>
      exploreFrom successors fuel (explored ++ [subset])
        (waiting ++
          unseen key (explored ++ subset :: waiting) (successors subset))

/-- Puts a subset in front of the first one with a larger key. -/
def place (subset : List Nat) : List (List Nat) → List (List Nat)
  | [] => [subset]
  | head :: tail =>
      if key subset < key head then subset :: head :: tail
      else head :: place subset tail

/-- Subsets in the order of their keys. -/
def arrange (subsets : List (List Nat)) : List (List Nat) :=
  subsets.foldr (place key) []

end Subset

namespace Automaton

def subsetLabels (automaton : Automaton) (subset : List Nat) : List String :=
  subset.map automaton.stateLabel

def subsetKey (automaton : Automaton) (style : KeyStyle)
    (subset : List Nat) : List String :=
  match style with
  | .separated => automaton.subsetLabels subset
  | .concatenated => [String.join (automaton.subsetLabels subset)]

/-- The subsets that a subset leads to, in alphabet order. -/
def successors (automaton : Automaton) (subset : List Nat) :
    List (List Nat) :=
  automaton.symbolIndices.map (automaton.step subset)

/-- The representative subsets in the order of their discovery.  There are at
most as many keys as there are sets of states, which bounds the search. -/
def discovered (automaton : Automaton) (style : KeyStyle) :
    List (List Nat) :=
  Subset.exploreFrom (automaton.subsetKey style) automaton.successors
    (Nat.pow 2 automaton.states.length) [] [[automaton.initial]]

/-- The representative subsets in the order of their keys. -/
def representatives (automaton : Automaton) (style : KeyStyle) :
    List (List Nat) :=
  Subset.arrange (automaton.subsetKey style) (automaton.discovered style)

/-- The name of the state at a position of the key order. -/
def subsetName (position : Nat) : String :=
  "s" ++ toString position

/-- The name of the state with the key of the given subset.  There is none
where no listed subset has that key. -/
def nameOfSubset? (automaton : Automaton) (style : KeyStyle)
    (subsets : List (List Nat)) (subset : List Nat) : Option String :=
  (subsets.findIdx? fun representative =>
    automaton.subsetKey style representative
      == automaton.subsetKey style subset).map subsetName

/-- The declarations of the state that represents one subset: its name, its
mark, and where every symbol leads. -/
def subsetDeclarations? (automaton : Automaton) (style : KeyStyle)
    (subsets : List (List Nat)) (subset : List Nat) :
    Option (List Declaration) := do
  let name ← automaton.nameOfSubset? style subsets subset
  let transitions ← automaton.symbolIndices.mapM fun symbol =>
    (automaton.nameOfSubset? style subsets
      (automaton.step subset symbol)).map fun destination =>
        Declaration.transition
          { origin := name
            symbol := automaton.symbolLabel symbol
            destinations := [destination] }
  return .states [name]
    :: .finals (if subset.any automaton.isFinal then [name] else [])
    :: transitions

/-- All that the construction declares, unless a look-up of a name fails. -/
def determinizationDeclarations? (automaton : Automaton)
    (style : KeyStyle) : Option (List Declaration) := do
  let subsets := automaton.representatives style
  let initial ← automaton.nameOfSubset? style subsets [automaton.initial]
  let declarations ←
    subsets.mapM (automaton.subsetDeclarations? style subsets)
  return .alphabet automaton.alphabet :: .initial initial
    :: declarations.flatten

/-- The subset construction over the subsets that can be reached from the
initial state.  The empty subset is a state like any other, so every state and
symbol has exactly one destination. -/
def determinize? (automaton : Automaton) (style : KeyStyle) :
    Option (Except DraftFault Determinization) :=
  (automaton.determinizationDeclarations? style).map fun declarations =>
    ((Draft.ofDeclarations declarations).build .deterministic).map
      fun deterministic =>
        { automaton := deterministic
          subsets := (automaton.representatives style).map
            automaton.subsetLabels }

/-- The outcome of the construction.  There is one for every well-formed
automaton, so the fault named here is never the one reported. -/
def determinize (automaton : Automaton) (style : KeyStyle) :
    Except DraftFault Determinization :=
  (automaton.determinize? style).getD (.error .noStates)

/-- The deterministic automaton with the same language. -/
def toDeterministic (automaton : Automaton) : Except DraftFault Automaton :=
  (automaton.determinize .separated).map (·.automaton)

end Automaton

end Recognizer
