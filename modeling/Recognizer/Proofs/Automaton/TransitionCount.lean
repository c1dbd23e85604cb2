import Mathlib.Data.List.Nodup
import Recognizer.Proofs.Automaton.Additions
import Recognizer.Proofs.Automaton.Building

/-!
# The number of transitions

The transitions of an automaton are listed one by one as arrows, none of them
twice.  An addition lists one arrow more, unless it was there already.
-/

namespace Recognizer

/-- A single transition, by positions. -/
structure Arrow where
  state : Nat
  symbol : Nat
  destination : Nat
deriving DecidableEq

namespace Automaton

/-- The single transitions, by state, symbol and destination. -/
def arrows (automaton : Automaton) : List Arrow :=
  automaton.entries.flatMap fun arc =>
    arc.destinations.map fun destination => ⟨arc.state, arc.symbol, destination⟩

variable {automaton : Automaton}

namespace WellFormed

theorem mem_arrows (wellFormed : automaton.WellFormed) {arrow : Arrow} :
    arrow ∈ automaton.arrows ↔
      arrow.destination ∈ automaton.destinations arrow.state arrow.symbol := by
  simp only [arrows, List.mem_flatMap, List.mem_map, mem_entries]
  constructor
  · rintro ⟨arc, ⟨_, _, same⟩, destination, member, rfl⟩
    rw [← same]
    exact member
  · intro leads
    obtain ⟨stateInRange, symbolInRange⟩ := wellFormed.lt_of_leads leads
    exact ⟨⟨arrow.state, arrow.symbol, _⟩,
      ⟨stateInRange, symbolInRange, rfl⟩, arrow.destination, leads, rfl⟩

theorem nodup_arrows (wellFormed : automaton.WellFormed) :
    automaton.arrows.Nodup := by
  rw [arrows, List.nodup_flatMap]
  constructor
  · intro arc member
    obtain ⟨_, _, same⟩ := mem_entries.mp member
    rw [same]
    refine (wellFormed.destinations_ascending _ _).nodup.map ?_
    intro first second equal
    exact congrArg Arrow.destination equal
  · apply automaton.entries_ordered.imp
    intro first second before
    apply List.disjoint_left.mpr
    intro arrow ofFirst ofSecond
    obtain ⟨_, _, rfl⟩ := List.mem_map.mp ofFirst
    obtain ⟨_, _, same⟩ := List.mem_map.mp ofSecond
    simp only [Arrow.mk.injEq] at same
    omega

theorem rows_eq (wellFormed : automaton.WellFormed) :
    automaton.rows = automaton.stateIndices.map fun state =>
      automaton.symbolIndices.map (automaton.destinations state) := by
  apply List.ext_getElem
  · simp [stateIndices, wellFormed.row_per_state]
  · intro state inRows inRange
    apply List.ext_getElem
    · rw [wellFormed.entry_per_symbol _ (List.getElem_mem inRows)]
      simp [symbolIndices]
    · intro symbol inRow symbolInRange
      rw [getElem_rows]
      simp [stateIndices, symbolIndices]

theorem length_arrows (wellFormed : automaton.WellFormed) :
    automaton.arrows.length = automaton.transitionCount := by
  have sums : ∀ counts : List Nat, total counts = counts.sum := fun _ => rfl
  rw [transitionCount, wellFormed.rows_eq, arrows, List.length_flatMap, entries]
  simp only [sums, List.flatMap_def, List.map_flatten, List.sum_flatten,
    List.map_map, List.length_map, Function.comp_def]

section Added

variable {extended : Automaton} {record : Undo} {state symbol destination : Nat}

theorem leads_add_iff (wellFormed : automaton.WellFormed)
    (stateInRange : state < automaton.states.length)
    (symbolInRange : symbol < automaton.alphabet.length)
    (added : automaton.add state symbol destination = .ok (extended, record))
    {arrow : Arrow} :
    arrow.destination ∈ extended.destinations arrow.state arrow.symbol ↔
      arrow = ⟨state, symbol, destination⟩ ∨
        arrow.destination ∈
          automaton.destinations arrow.state arrow.symbol := by
  obtain ⟨otherState, otherSymbol, other⟩ := arrow
  simp only [Arrow.mk.injEq]
  by_cases same : otherState = state ∧ otherSymbol = symbol
  · obtain ⟨rfl, rfl⟩ := same
    simp [wellFormed.mem_destinations_add stateInRange symbolInRange added]
  · have untouched : extended.destinations otherState otherSymbol =
        automaton.destinations otherState otherSymbol := by
      obtain ⟨_, ⟨_, rfl⟩ | ⟨_, _, rfl⟩⟩ := add_eq_ok_iff.mp added
      · rfl
      · apply destinations_setDestinations_of_ne
        grind
    rw [untouched]
    grind

theorem transitionCount_add (wellFormed : automaton.WellFormed)
    (stateInRange : state < automaton.states.length)
    (symbolInRange : symbol < automaton.alphabet.length)
    (destinationInRange : destination < automaton.states.length)
    (added : automaton.add state symbol destination = .ok (extended, record))
    (absent : destination ∉ automaton.destinations state symbol) :
    extended.transitionCount = automaton.transitionCount + 1 := by
  have extendedShape := wellFormed.add destinationInRange added
  have isNew : (⟨state, symbol, destination⟩ : Arrow) ∉ automaton.arrows :=
    fun old => absent (wellFormed.mem_arrows.mp old)
  have listed : extended.arrows.Perm
      (⟨state, symbol, destination⟩ :: automaton.arrows) := by
    apply (List.perm_ext_iff_of_nodup extendedShape.nodup_arrows
      (List.nodup_cons.mpr ⟨isNew, wellFormed.nodup_arrows⟩)).mpr
    intro arrow
    rw [extendedShape.mem_arrows, List.mem_cons, wellFormed.mem_arrows]
    exact wellFormed.leads_add_iff stateInRange symbolInRange added
  rw [← extendedShape.length_arrows, listed.length_eq, List.length_cons,
    wellFormed.length_arrows]

end Added

end WellFormed

end Automaton

end Recognizer
