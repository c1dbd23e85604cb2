import Recognizer.Automaton.Determinization
import Recognizer.Graph.Exact

/-!
# Numbered labels

Different numbers have different labels, both as nodes of a graph and as states
of a determinized automaton: the digits can be read back.
-/

namespace Recognizer

theorem EdgeGraph.nodeLabel_inj {first second : Nat} :
    nodeLabel first = nodeLabel second ↔ first = second := by
  constructor
  · intro same
    have digits : (Nat.repr first).toList = (Nat.repr second).toList :=
      congrArg String.toList same
    rw [Nat.toList_repr, Nat.toList_repr] at digits
    rw [← Nat.ofDigitChars_ten_toDigits (n := first), digits,
      Nat.ofDigitChars_ten_toDigits]
  · exact fun same => congrArg nodeLabel same

theorem Automaton.subsetName_inj {first second : Nat} :
    subsetName first = subsetName second ↔ first = second := by
  constructor
  · intro same
    have digits := congrArg String.toList same
    simp only [subsetName, String.toList_append, List.append_cancel_left_eq]
      at digits
    exact EdgeGraph.nodeLabel_inj.mp (String.toList_injective digits)
  · exact fun same => congrArg subsetName same

end Recognizer
