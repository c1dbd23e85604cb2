import Mathlib.Data.Set.Finite.Lattice
import Mathlib.Data.Set.Finite.List
import Recognizer.Proofs.Automaton.Visits
import Recognizer.Proofs.Learning.Training

/-!
# Generalization stays on the skeleton

A generalization adds transitions along edges, and every edge carries a symbol of
the exact automaton.  Each transition therefore runs beside one that was there
from the beginning.  Following these instead, a run on any word visits the same
states on a word of the exact automaton, which is a positive word of the same
length.  Learning thus adds new symbols at the places of old words, but no new
ways and no longer words.
-/

namespace Recognizer

namespace Automaton

/-- The automaton has the transitions of the skeleton, and every transition runs
beside one of the skeleton, perhaps under another symbol. -/
structure Thickens (skeleton automaton : Automaton) : Prop where
  wellFormed : automaton.WellFormed
  grows : Extends skeleton automaton
  beside : ∀ {state symbol next : Nat},
    next ∈ automaton.destinations state symbol →
      ∃ other, next ∈ skeleton.destinations state other

/-- Some symbol leads from the first state to the second. -/
def Joins (skeleton : Automaton) (origin destination : Nat) : Prop :=
  ∃ symbol, destination ∈ skeleton.destinations origin symbol

namespace Thickens

variable {skeleton automaton extended : Automaton}

theorem refl (wellFormed : skeleton.WellFormed) :
    Thickens skeleton skeleton where
  wellFormed := wellFormed
  grows := Extends.refl skeleton
  beside := fun leads => ⟨_, leads⟩

theorem add (thickens : Thickens skeleton automaton)
    {record : Undo} {origin symbol destination : Nat}
    (joins : skeleton.Joins origin destination)
    (originInRange : origin < automaton.states.length)
    (symbolInRange : symbol < automaton.alphabet.length)
    (destinationInRange : destination < automaton.states.length)
    (added : automaton.add origin symbol destination =
      .ok (extended, record)) : Thickens skeleton extended where
  wellFormed := thickens.wellFormed.add destinationInRange added
  grows := thickens.grows.trans
    (thickens.wellFormed.extends_add originInRange symbolInRange added)
  beside := by
    intro state other next leads
    by_cases same : origin = state ∧ symbol = other
    · obtain ⟨rfl, rfl⟩ := same
      rcases (thickens.wellFormed.mem_destinations_add originInRange
        symbolInRange added next).mp leads with rfl | old
      · exact joins
      · exact thickens.beside old
    · obtain ⟨_, ⟨_, rfl⟩ | ⟨_, _, rfl⟩⟩ := add_eq_ok_iff.mp added
      · exact thickens.beside leads
      · rw [destinations_setDestinations_of_ne] at leads
        · exact thickens.beside leads
        · exact not_and_or.mp same

/-- Following the skeleton, a run visits the same states on another word. -/
theorem visits (thickens : Thickens skeleton automaton)
    (shape : skeleton.WellFormed) {state : Nat} {word : Word}
    {states : List Nat} (read : automaton.Visits state word states) :
    ∃ spelled : Word, spelled.length = word.length ∧
      skeleton.Visits state spelled states := by
  induction read with
  | stay state => exact ⟨[], rfl, .stay state⟩
  | read _ leads _ ih =>
      obtain ⟨symbol, onSkeleton⟩ := thickens.beside leads
      obtain ⟨spelled, sameLength, later⟩ := ih
      have known : skeleton.symbolIndex? (skeleton.symbolLabel symbol) =
          some symbol :=
        shape.symbolIndex?_eq_some_iff.mpr
          ⟨(shape.lt_of_leads onSkeleton).2, rfl⟩
      refine ⟨skeleton.symbolLabel symbol :: spelled, ?_,
        .read known onSkeleton later⟩
      rw [List.length_cons, sameLength, List.length_cons]

theorem acceptingRun (thickens : Thickens skeleton automaton)
    (shape : skeleton.WellFormed) {word : Word} {states : List Nat}
    (accepting : automaton.AcceptingRun word states) :
    ∃ spelled : Word, spelled.length = word.length ∧
      skeleton.AcceptingRun spelled states := by
  obtain ⟨visits, last, ends, final⟩ := accepting
  rw [thickens.grows.initial_eq] at visits
  rw [thickens.grows.isFinal] at final
  obtain ⟨spelled, sameLength, onSkeleton⟩ := thickens.visits shape visits
  exact ⟨spelled, sameLength, onSkeleton, last, ends, final⟩

end Thickens

end Automaton

/-! ## Runs along edges of the skeleton -/

namespace Generalization

open Automaton (Thickens)

variable {harmful : Automaton → Bool} {skeleton : Automaton}

theorem attempt_thickens {run : Generalization}
    (thickens : Thickens skeleton run.automaton)
    {origin symbol destination : Nat}
    (joins : skeleton.Joins origin destination)
    (originInRange : origin < run.automaton.states.length)
    (symbolInRange : symbol < run.automaton.alphabet.length)
    (destinationInRange : destination < run.automaton.states.length) :
    Thickens skeleton
      (attempt harmful origin destination run symbol).automaton := by
  cases running : run.fault with
  | some fault =>
      rw [attempt_of_stopped (by simp [running])]
      exact thickens
  | none =>
      have outcome := attempt_outcome harmful destination running
        thickens.wellFormed originInRange symbolInRange
      generalize attempt harmful origin destination run symbol = after
        at outcome
      cases outcome with
      | present _ => exact thickens
      | refused _ => exact thickens
      | rolledBack _ _ => exact thickens
      | kept added _ =>
          exact thickens.add joins originInRange symbolInRange
            destinationInRange added

theorem attempts_thicken {run : Generalization}
    (thickens : Thickens skeleton run.automaton)
    (shape : skeleton.WellFormed) {origin destination : Nat}
    (joins : skeleton.Joins origin destination) {symbols : List Nat}
    (symbolsInRange : ∀ symbol ∈ symbols,
      symbol < skeleton.alphabet.length) :
    Thickens skeleton
      (symbols.foldl (attempt harmful origin destination) run).automaton := by
  obtain ⟨_, leads⟩ := joins
  -- The labels never change, so what is in range of the skeleton stays so.
  apply List.foldlRecOn (motive := fun current : Generalization =>
    Thickens skeleton current.automaton)
  · exact thickens
  · intro current sofar symbol member
    apply attempt_thickens sofar ⟨_, leads⟩
    · rw [sofar.grows.states_eq]
      exact (shape.lt_of_leads leads).1
    · rw [sofar.grows.alphabet_eq]
      exact symbolsInRange symbol member
    · rw [sofar.grows.states_eq]
      exact shape.destination_lt leads

/-- The skeleton joins the ends of the edge, as far as both are states. -/
def Drawn (skeleton : Automaton) (edge : Edge) : Prop :=
  ∀ origin destination,
    skeleton.stateIndex? (EdgeGraph.nodeLabel edge.origin) = some origin →
    skeleton.stateIndex? (EdgeGraph.nodeLabel edge.destination) =
      some destination →
    skeleton.Joins origin destination

theorem visit_thickens {run : Generalization}
    (thickens : Thickens skeleton run.automaton)
    (shape : skeleton.WellFormed) {edge : Edge}
    (drawn : Drawn skeleton edge) :
    Thickens skeleton (visit harmful run edge).automaton := by
  unfold visit
  split
  · exact thickens
  · split
    · exact thickens
    · rename_i origin originFound
      split
      · exact thickens
      · rename_i destination destinationFound
        rw [thickens.grows.stateIndex?] at originFound destinationFound
        apply attempts_thicken thickens shape
        · exact drawn origin destination originFound destinationFound
        · intro symbol member
          rw [missingSymbols_of_extends thickens.grows] at member
          exact (mem_missingSymbols.mp member).1

theorem visits_thicken {run : Generalization}
    (thickens : Thickens skeleton run.automaton)
    (shape : skeleton.WellFormed) {edges : List Edge}
    (drawn : ∀ edge ∈ edges, Drawn skeleton edge) :
    Thickens skeleton (edges.foldl (visit harmful) run).automaton := by
  induction edges generalizing run with
  | nil => exact thickens
  | cons first later ih =>
      apply ih (visit_thickens thickens shape (drawn first List.mem_cons_self))
      intro edge member
      exact drawn edge (List.mem_cons_of_mem first member)

end Generalization

/-- The automaton of a graph joins the ends of every edge, because every edge
carries a symbol. -/
theorem EdgeGraph.Realizes.drawn {automaton : Automaton} {graph : EdgeGraph}
    (realizes : Realizes automaton graph) (labelled : graph.Labelled)
    {edge : Edge} (member : edge ∈ graph.edges) :
    Generalization.Drawn automaton edge := by
  intro origin destination originFound destinationFound
  obtain ⟨label, carries⟩ := labelled.carries member
  obtain ⟨symbol, known⟩ := realizes.exists_symbolIndex? carries
  exact ⟨symbol, (realizes.leads_iff_carries originFound known).mpr
    ⟨edge.destination, carries, destinationFound⟩⟩

/-! ## Learned automata -/

theorem Word.finite_of_bounded (symbols : List String) (others : List Word) :
    {word : Word | (∀ symbol ∈ word, symbol ∈ symbols) ∧
      ∃ other ∈ others, other.length = word.length}.Finite := by
  have ofLength : ∀ length : Nat,
      {word : Word | (∀ symbol ∈ word, symbol ∈ symbols) ∧
        word.length = length}.Finite := by
    intro length
    apply ((List.finite_length_eq {symbol // symbol ∈ symbols} length).image
      (List.map Subtype.val)).subset
    intro word bounded
    obtain ⟨known, sameLength⟩ := bounded
    refine ⟨word.attachWith (· ∈ symbols) known, ?_, ?_⟩
    · exact (List.length_attachWith ..).trans sameLength
    · exact List.attachWith_map_subtype_val ..
  apply (others.finite_toSet.biUnion
    fun other _ => ofLength other.length).subset
  intro word bounded
  obtain ⟨known, other, member, sameLength⟩ := bounded
  exact Set.mem_biUnion member ⟨known, sameLength.symm⟩

namespace Training

theorem ofWords_thickens (workers : Nat) (positive negative : List Word) :
    ∃ (initial : Automaton) (training : Training),
      (Trie.ofWords positive).edgeGraph.exactAutomaton = .ok initial ∧
      Training.ofWords workers positive negative = .ok training ∧
      initial.WellFormed ∧
      (∀ label, label ∈ initial.alphabet ↔
        ∃ word ∈ positive, label ∈ word) ∧
      (∀ word : Word, initial.accepts word = true ↔
        word ≠ [] ∧ word ∈ positive) ∧
      Automaton.Thickens initial training.automaton := by
  obtain ⟨initial, _, built, realizes, rfl, _, trained⟩ :=
    ofWords_run workers positive negative
  refine ⟨initial, _, built, trained, realizes.wellFormed, ?_, ?_, ?_⟩
  · intro label
    rw [realizes.alphabet_iff, Trie.mem_alphabet_edgeGraph]
  · intro word
    rw [realizes.accepts_iff_path (Trie.edgeGraph_closed positive)]
    exact Trie.path_edgeGraph_iff positive
  · apply Generalization.visits_thicken
    · exact Automaton.Thickens.refl realizes.wellFormed
    · exact realizes.wellFormed
    · intro edge member
      obtain ⟨ranked, rankedMember, rfl⟩ := List.mem_map.mp member
      exact realizes.drawn (Trie.edgeGraph_labelled _)
        (EdgeGraph.edge_of_mem_ranked rankedMember)

/-- Training always succeeds, and learning does not leave the skeleton of the
positive words.  The states of an accepting run of the learned automaton are
those of an accepting run of the exact automaton, on a non-empty positive word of
the same length.  So all words that are accepted are over the symbols of the
positive words and as long as one of them, and there are finitely many. -/
theorem ofWords_stays_on_skeleton (workers : Nat)
    (positive negative : List Word) :
    ∃ (exact : Automaton) (training : Training),
      (Trie.ofWords positive).edgeGraph.exactAutomaton = .ok exact ∧
      Training.ofWords workers positive negative = .ok training ∧
      training.automaton.states = exact.states ∧
      (∀ word states, training.automaton.AcceptingRun word states →
        ∃ spelled ∈ positive, spelled ≠ [] ∧
          spelled.length = word.length ∧
          exact.AcceptingRun spelled states) ∧
      (∀ word, training.automaton.accepts word = true →
        (∀ symbol ∈ word, ∃ other ∈ positive, symbol ∈ other) ∧
        ∃ other ∈ positive, other.length = word.length) ∧
      {word | training.automaton.accepts word = true}.Finite := by
  obtain ⟨initial, training, built, trained, shape, alphabet, language,
    thickens⟩ := ofWords_thickens workers positive negative
  have skeleton : ∀ word states,
      training.automaton.AcceptingRun word states →
        ∃ spelled ∈ positive, spelled ≠ [] ∧
          spelled.length = word.length ∧
          initial.AcceptingRun spelled states := by
    intro word states accepting
    obtain ⟨spelled, sameLength, onSkeleton⟩ :=
      thickens.acceptingRun shape accepting
    obtain ⟨nonempty, member⟩ := (language spelled).mp
      (Automaton.accepts_iff_acceptingRun.mpr ⟨states, onSkeleton⟩)
    exact ⟨spelled, member, nonempty, sameLength, onSkeleton⟩
  have bounded : ∀ word, training.automaton.accepts word = true →
      (∀ symbol ∈ word, ∃ other ∈ positive, symbol ∈ other) ∧
      ∃ other ∈ positive, other.length = word.length := by
    intro word accepted
    obtain ⟨states, accepting⟩ :=
      Automaton.accepts_iff_acceptingRun.mp accepted
    refine ⟨?_, ?_⟩
    · intro symbol member
      apply (alphabet symbol).mp
      rw [← thickens.grows.alphabet_eq]
      exact accepting.visits.mem_alphabet symbol member
    · obtain ⟨spelled, member, _, sameLength, _⟩ :=
        skeleton word states accepting
      exact ⟨spelled, member, sameLength⟩
  refine ⟨initial, training, built, trained, thickens.grows.states_eq,
    skeleton, bounded, ?_⟩
  apply (Word.finite_of_bounded initial.alphabet positive).subset
  intro word accepted
  obtain ⟨known, sameLength⟩ := bounded word accepted
  exact ⟨fun symbol member => (alphabet symbol).mpr (known symbol member),
    sameLength⟩

end Training

end Recognizer
