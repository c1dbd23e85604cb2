import Recognizer.Proofs.Determinization.Repetition
import Recognizer.Proofs.Determinization.Subsets

/-!
# The numbered automaton

The construction succeeds with either kind of keys, also where keys fall
together.  Its states are the numbered subsets.  A state goes on a symbol to the
one state with the key of the union of destinations.  Only the first set with a
key is listed, so the listed set need not be that union.
-/

namespace Recognizer

namespace Automaton

/-- The union of the destinations of some states on one symbol, as its ascending
list. -/
structure IsUnion (automaton : Automaton) (subset : List Nat) (symbol : Nat)
    (union : List Nat) : Prop where
  ascending : StrictlyAscending union
  mem_iff : ∀ destination, destination ∈ union ↔
    ∃ state ∈ subset, destination ∈ automaton.destinations state symbol

/-- The states `s0`, `s1`, ... of the deterministic automaton are those of the
listed subsets, in the order of their keys. -/
structure Numbered (automaton : Automaton) (style : KeyStyle)
    (subsets : List (List Nat)) (deterministic : Automaton) : Prop where
  wellFormed : deterministic.WellFormed
  kind_eq : deterministic.kind = .deterministic
  alphabet_eq : deterministic.alphabet = automaton.alphabet
  states_perm : deterministic.states.Perm
    ((List.range subsets.length).map subsetName)
  leads_once : ∀ state < deterministic.states.length,
    ∀ symbol < deterministic.alphabet.length,
      ∃ destination, deterministic.destinations state symbol = [destination]
  keys_ascending : StrictlyAscending
    (subsets.map (automaton.subsetKey style))
  initialLabel_eq : ∃ position,
    subsets[position]? = some [automaton.initial] ∧
      deterministic.initialLabel = subsetName position
  isFinal_iff : ∀ position subset state, subsets[position]? = some subset →
    deterministic.stateIndex? (subsetName position) = some state →
      (deterministic.isFinal state = true ↔
        ∃ member ∈ subset, automaton.isFinal member = true)
  leads : ∀ position subset state, subsets[position]? = some subset →
    deterministic.stateIndex? (subsetName position) = some state →
      ∀ symbol < automaton.alphabet.length, ∃ union next known destination,
        automaton.IsUnion subset symbol union ∧
        subsets[next]? = some known ∧
        automaton.subsetKey style known = automaton.subsetKey style union ∧
        deterministic.stateIndex? (subsetName next) = some destination ∧
        deterministic.destinations state symbol = [destination]

variable {automaton : Automaton} {style : KeyStyle}

theorem isUnion_step (automaton : Automaton) (subset : List Nat)
    (symbol : Nat) :
    automaton.IsUnion subset symbol (automaton.step subset symbol) where
  ascending := step_strictlyAscending automaton subset symbol
  mem_iff := fun _ => mem_step

theorem StandsFor.numbered {deterministic : Automaton}
    (stands : StandsFor automaton style deterministic)
    (wellFormed : automaton.WellFormed) :
    Numbered automaton style (automaton.representatives style)
      deterministic where
  wellFormed := stands.wellFormed
  kind_eq := stands.kind_eq
  alphabet_eq := stands.alphabet_eq
  states_perm := stands.states_perm wellFormed
  leads_once := stands.complete.leads
  keys_ascending := List.pairwise_map.mpr
    (representatives_ascending wellFormed style)
  initialLabel_eq := by
    obtain ⟨position, listed⟩ :=
      List.mem_iff_getElem?.mp (initial_mem_representatives style)
    refine ⟨position, listed, ?_⟩
    rw [stands.initialLabel_eq]
    exact nameFor_of_getElem? wellFormed listed
  isFinal_iff := by
    intro position subset state listed named
    rw [← nameFor_of_getElem? wellFormed listed] at named
    rw [stands.isFinal_iff subset (List.mem_of_getElem? listed) state named]
    exact List.any_eq_true
  leads := by
    intro position subset state listed named symbol inRange
    have member := List.mem_of_getElem? listed
    rw [← nameFor_of_getElem? wellFormed listed] at named
    obtain ⟨known, knownMember, same, sameName⟩ :=
      name_step_known wellFormed member inRange
    obtain ⟨next, knownListed⟩ := List.mem_iff_getElem?.mp knownMember
    obtain ⟨destination, nextNamed, destinations⟩ :=
      stands.destinations_eq subset member state named symbol inRange
    rw [← sameName, nameFor_of_getElem? wellFormed knownListed] at nextNamed
    exact ⟨_, next, known, destination, isUnion_step automaton subset symbol,
      knownListed, same, nextNamed, destinations⟩

/-- The search ends by itself, with one possible result, and the determinization
is built from the subsets that it has found.  No look-up of a name fails. -/
theorem determinize_numbered (wellFormed : automaton.WellFormed)
    (style : KeyStyle) :
    ∃ found subsets determinization,
      (∀ result, Subset.Search (automaton.subsetKey style)
        automaton.successors [] [[automaton.initial]] result ↔
          result = found) ∧
      subsets.Perm found ∧
      automaton.determinize? style = some (.ok determinization) ∧
      automaton.determinize style = .ok determinization ∧
      determinization.subsets = subsets.map automaton.subsetLabels ∧
      (∀ subset ∈ subsets, automaton.IsSubset subset) ∧
      Numbered automaton style subsets determinization.automaton := by
  obtain ⟨deterministic, succeeds, stands⟩ :=
    determinize_standsFor wellFormed style
  have lookedUp := determinize?_eq_some wellFormed style
  rw [succeeds] at lookedUp
  refine ⟨automaton.discovered style, automaton.representatives style, _, ?_,
    Subset.arrange_perm _, lookedUp, succeeds, rfl,
    fun _ member => isSubset_of_mem_representatives wellFormed style member,
    stands.numbered wellFormed⟩
  intro result
  constructor
  · exact fun search => search.unique (discovered_search wellFormed style)
  · intro same
    rw [same]
    exact discovered_search wellFormed style

/-- The set with the labels `12`, `3` falls to the state of `1`, `23`. -/
theorem colliding_numbered :
    ∃ subsets determinization,
      colliding.determinize .concatenated = .ok determinization ∧
      determinization.subsets = [[], ["0"], ["1", "23"], ["f"]] ∧
      Numbered colliding .concatenated subsets determinization.automaton ∧
      determinization.automaton.destinations 1 0 = [2] ∧
      determinization.automaton.destinations 1 1 = [2] := by
  obtain ⟨_, subsets, determinization, _, _, _, succeeds, _, _, numbered⟩ :=
    determinize_numbered colliding_wellFormed .concatenated
  have known : (colliding.determinize .concatenated).map
      (fun determinization => (determinization.subsets,
        determinization.automaton.destinations 1 0,
        determinization.automaton.destinations 1 1)) =
      .ok ([[], ["0"], ["1", "23"], ["f"]], [2], [2]) := by decide +kernel
  rw [succeeds] at known
  simp only [Except.map, Except.ok.injEq, Prod.mk.injEq] at known
  obtain ⟨subsets_eq, onFirst, onSecond⟩ := known
  exact ⟨subsets, determinization, succeeds, subsets_eq, numbered, onFirst,
    onSecond⟩

end Automaton

end Recognizer
