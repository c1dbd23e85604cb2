import Recognizer.Automaton.Draft

/-!
# Random automata

A random automaton has numbered states and the first letters as symbols.
State 0 is initial, every state is final with probability three in ten, and
every state gets at most the given number of random transitions.
-/

namespace Recognizer

namespace Random

def letter (symbol : Nat) : String :=
  String.singleton (Char.ofNat ('a'.toNat + symbol))

/-- A random number below a bound. -/
def below (generator : StdGen) (bound : Nat) : Nat × StdGen :=
  randNat generator 0 (bound - 1)

/-- Random transitions of one state. -/
def transitions (states symbols origin : Nat) :
    Nat → StdGen → List Declaration × StdGen
  | 0, generator => ([], generator)
  | count + 1, generator =>
      let (symbol, generator) := below generator symbols
      let (destination, generator) := below generator states
      let (others, generator) :=
        transitions states symbols origin count generator
      (.destination (toString origin) (letter symbol) (toString destination)
        :: others, generator)

/-- Whether one state is final, and its random transitions.  Without symbols
there are none. -/
def stateDeclarations (states symbols outdegree origin : Nat)
    (generator : StdGen) : List Declaration × StdGen :=
  let (chance, generator) := below generator 10
  let finals := if chance < 3 then [toString origin] else []
  if symbols = 0 then ([.finals finals], generator)
  else
    let (count, generator) := below generator (outdegree + 1)
    let (declared, generator) :=
      transitions states symbols origin count generator
    (.finals finals :: declared, generator)

/-- The declarations of the given states. -/
def declarations (states symbols outdegree : Nat) :
    List Nat → StdGen → List Declaration
  | [], _ => []
  | origin :: others, generator =>
      let (declared, generator) :=
        stateDeclarations states symbols outdegree origin generator
      declared ++ declarations states symbols outdegree others generator

end Random

/-- A random automaton.  There has to be a state, and there are only 26
letters. -/
def Automaton.random? (generator : StdGen) (states symbols outdegree : Nat) :
    Option Automaton :=
  if states = 0 ∨ 26 < symbols then none
  else
    let draft := Draft.ofDeclarations <|
      .states ((List.range states).map toString)
        :: .alphabet ((List.range symbols).map Random.letter)
        :: .initial (toString 0)
        :: Random.declarations states symbols outdegree
            (List.range states) generator
    (draft.build .nondeterministic).toOption

end Recognizer
