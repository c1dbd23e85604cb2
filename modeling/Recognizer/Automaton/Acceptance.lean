import Recognizer.Automaton.Basic

/-!
# Acceptance

A word is read by following all runs at once: the active states are kept as an
ascending list, and reading stops as soon as it is empty, because no final
state can be reached any more.
-/

namespace Recognizer

namespace Automaton

/-- The states that one symbol leads to from any of the active states. -/
def step (automaton : Automaton) (active : List Nat) (symbol : Nat) :
    List Nat :=
  active.foldr
    (fun state reached => Ascending.union (automaton.destinations state symbol) reached)
    []

/-- Whether some final state is reached from the active states by the word.
A symbol outside the alphabet leads nowhere. -/
def acceptsFrom (automaton : Automaton) (active : List Nat) : Word → Bool
  | [] => active.any automaton.isFinal
  | label :: rest =>
      match automaton.symbolIndex? label with
      | none => false
      | some symbol =>
          let reached := automaton.step active symbol
          if reached.isEmpty then false else acceptsFrom automaton reached rest

def accepts (automaton : Automaton) (word : Word) : Bool :=
  automaton.acceptsFrom [automaton.initial] word

/-- Whether the automaton accepts the word formed by the characters of a
text. -/
def acceptsText (automaton : Automaton) (text : String) : Bool :=
  automaton.accepts (Word.ofText text)

theorem mem_step {automaton : Automaton} {active : List Nat}
    {symbol destination : Nat} :
    destination ∈ automaton.step active symbol ↔
      ∃ state ∈ active, destination ∈ automaton.destinations state symbol := by
  induction active with
  | nil => simp [step]
  | cons head tail ih =>
      simp only [step, List.foldr_cons, Ascending.mem_union, List.mem_cons,
        exists_eq_or_imp]
      exact or_congr_right ih

theorem step_strictlyAscending (automaton : Automaton) (active : List Nat)
    (symbol : Nat) :
    StrictlyAscending (automaton.step active symbol) := by
  induction active with
  | nil => exact List.Pairwise.nil
  | cons head tail ih => exact Ascending.union_strictlyAscending _ ih

end Automaton

end Recognizer
