import Recognizer.Proofs.Automaton.ActiveSets
import Recognizer.Proofs.Determinization.Construction

/-!
# The sets that the search finds

Whatever the keys are, the search only finds reachable sets.  Where no two
reachable sets share a key it finds them all, because the only subset with the
key of a reachable set is that set itself.  Separated keys never fall together.
-/

namespace Recognizer

namespace Automaton

variable {automaton : Automaton} {style : KeyStyle}

theorem ReachableSet.isSubset (wellFormed : automaton.WellFormed)
    {active : List Nat} (reachable : automaton.ReachableSet active) :
    automaton.IsSubset active :=
  ReachableSet.induction wellFormed wellFormed.isSubset_initial
    (fun active _ symbol _ => wellFormed.isSubset_step active symbol) reachable

theorem reachableSet_of_mem_representatives (wellFormed : automaton.WellFormed)
    {subset : List Nat} (member : subset ∈ automaton.representatives style) :
    automaton.ReachableSet subset := by
  have found : ∀ active ∈ automaton.discovered style,
      automaton.ReachableSet active := by
    apply Subset.exploreFrom_forall
    · intro active reachable next leads
      obtain ⟨symbol, inRange, rfl⟩ := mem_successors.mp leads
      exact reachable.step wellFormed inRange
    · intro active start
      rw [List.mem_singleton.mp start]
      exact reachableSet_initial
  exact found subset (Subset.mem_arrange.mp member)

/-- No two reachable sets share a key. -/
def Separates (automaton : Automaton) (style : KeyStyle) : Prop :=
  ∀ first second, automaton.ReachableSet first →
    automaton.ReachableSet second →
    automaton.subsetKey style first = automaton.subsetKey style second →
      first = second

theorem WellFormed.separates_separated (wellFormed : automaton.WellFormed) :
    automaton.Separates .separated :=
  fun _ _ firstReachable secondReachable same =>
    (subsetLabels_inj wellFormed (firstReachable.isSubset wellFormed).inRange
      (secondReachable.isSubset wellFormed).inRange).mp same

namespace Separates

variable (separates : automaton.Separates style)
  (wellFormed : automaton.WellFormed)

include separates wellFormed

theorem step_mem_representatives {subset : List Nat}
    (member : subset ∈ automaton.representatives style) {symbol : Nat}
    (inRange : symbol < automaton.alphabet.length) :
    automaton.step subset symbol ∈ automaton.representatives style := by
  obtain ⟨known, knownMember, same⟩ :=
    key_step_known wellFormed style member inRange
  have reached : automaton.ReachableSet (automaton.step subset symbol) :=
    (reachableSet_of_mem_representatives wellFormed member).step wellFormed
      inRange
  rw [← separates known _
    (reachableSet_of_mem_representatives wellFormed knownMember) reached same]
  exact knownMember

theorem mem_representatives_iff {subset : List Nat} :
    subset ∈ automaton.representatives style ↔
      automaton.ReachableSet subset := by
  constructor
  · exact reachableSet_of_mem_representatives wellFormed
  · intro reachable
    apply ReachableSet.induction wellFormed
      (initial_mem_representatives style) _ reachable
    intro active member symbol inRange
    exact separates.step_mem_representatives wellFormed member inRange

end Separates

end Automaton

end Recognizer
