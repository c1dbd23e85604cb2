import Recognizer.Proofs.Determinization.Numbering
import Recognizer.Proofs.Word

/-!
# The words of the discovery

The search comes to its subsets in the order of words.  The first subset waits
on the empty word, and a subset that is explored on some word passes that word,
with one more symbol, to its new successors.  Since the longest waiting subset is
explored first and its successors come in alphabet order, every known word stays
below all words that are still to come.  So no other word leads to the state of a
subset earlier than the one on which the subset was found, also where subsets
fall together under one key.
-/

namespace Recognizer

/-- A subset together with the word on which the search comes to it. -/
structure Arrival where
  word : Word
  subset : List Nat

namespace Subset

/-- Of the candidates with a new key, the first one is kept. -/
theorem exists_fresh (key : List Nat → List String)
    {before : Arrival → Arrival → Prop} {candidates : List Arrival}
    (ordered : candidates.Pairwise before) (known : List (List Nat)) :
    ∃ fresh : List Arrival, fresh.Sublist candidates ∧
      fresh.map (·.subset) = unseen key known (candidates.map (·.subset)) ∧
      ∀ candidate ∈ candidates,
        (∃ subset ∈ known, key subset = key candidate.subset) ∨
          ∃ first ∈ fresh, key first.subset = key candidate.subset ∧
            (first = candidate ∨ before first candidate) := by
  induction candidates generalizing known with
  | nil =>
      exact ⟨[], .slnil, rfl, fun _ member => absurd member List.not_mem_nil⟩
  | cons head later ih =>
      obtain ⟨headBefore, laterOrdered⟩ := List.pairwise_cons.mp ordered
      rw [List.map_cons, unseen]
      split
      · rename_i old
        obtain ⟨fresh, kept, same, firsts⟩ := ih laterOrdered known
        refine ⟨fresh, kept.cons head, same, ?_⟩
        intro candidate member
        rcases List.mem_cons.mp member with rfl | other
        · obtain ⟨subset, subsetMember, sameKey⟩ := List.any_eq_true.mp old
          exact Or.inl ⟨subset, subsetMember, beq_iff_eq.mp sameKey⟩
        · exact firsts candidate other
      · obtain ⟨fresh, kept, same, firsts⟩ :=
          ih laterOrdered (known ++ [head.subset])
        refine ⟨head :: fresh, kept.cons_cons head, ?_, ?_⟩
        · rw [List.map_cons, same]
        · intro candidate member
          rcases List.mem_cons.mp member with rfl | other
          · exact Or.inr ⟨candidate, List.mem_cons_self, rfl, Or.inl rfl⟩
          · rcases firsts candidate other with
              ⟨subset, subsetMember, sameKey⟩ | ⟨first, firstMember, found⟩
            · rcases List.mem_append.mp subsetMember with early | last
              · exact Or.inl ⟨subset, early, sameKey⟩
              · rw [List.mem_singleton.mp last] at sameKey
                exact Or.inr ⟨head, List.mem_cons_self, sameKey,
                  Or.inr (headBefore candidate other)⟩
            · exact Or.inr
                ⟨first, List.mem_cons_of_mem head firstMember, found⟩

end Subset

namespace Automaton

/-- The arrival at the successor of a subset. -/
def arriveNext (automaton : Automaton) (arrival : Arrival) (symbol : Nat) :
    Arrival :=
  ⟨arrival.word ++ [automaton.symbolLabel symbol],
    automaton.step arrival.subset symbol⟩

/-- What the search keeps about words: arrivals are ordered by their words,
every arrival but the first one comes from an explored one, and where an explored
one leads to is known on no later word. -/
structure BreadthFirst (automaton : Automaton) (style : KeyStyle)
    (explored waiting : List Arrival) : Prop where
  initial_known : ⟨[], [automaton.initial]⟩ ∈ explored ++ waiting
  ordered : (explored ++ waiting).Pairwise fun first second =>
    first.word.Before second.word
  origin : ∀ arrival ∈ explored ++ waiting,
    arrival = ⟨[], [automaton.initial]⟩ ∨
      ∃ previous ∈ explored, ∃ symbol < automaton.alphabet.length,
        arrival = automaton.arriveNext previous symbol
  passed : ∀ arrival ∈ explored, ∀ symbol < automaton.alphabet.length,
    ∃ known ∈ explored ++ waiting,
      automaton.subsetKey style known.subset =
        automaton.subsetKey style (automaton.step arrival.subset symbol) ∧
      (known.word = arrival.word ++ [automaton.symbolLabel symbol] ∨
        known.word.Before (arrival.word ++ [automaton.symbolLabel symbol]))

variable {automaton : Automaton} {style : KeyStyle}

theorem successors_eq_map (arrival : Arrival) :
    automaton.successors arrival.subset =
      (automaton.symbolIndices.map (automaton.arriveNext arrival)).map
        (·.subset) := by
  rw [List.map_map]
  rfl

theorem arriveNext_ordered (wellFormed : automaton.WellFormed)
    (arrival : Arrival) :
    (automaton.symbolIndices.map (automaton.arriveNext arrival)).Pairwise
      fun first second => first.word.Before second.word := by
  rw [List.pairwise_map]
  apply List.pairwise_lt_range.imp_of_mem
  intro first second firstListed secondListed before
  apply Word.concat_before_concat
  exact (getD_lt_getD_iff wellFormed.alphabet_ascending
    (List.mem_range.mp firstListed) (List.mem_range.mp secondListed)).mpr before

namespace BreadthFirst

variable {explored waiting : List Arrival}

theorem start : automaton.BreadthFirst style [] [⟨[], [automaton.initial]⟩] where
  initial_known := List.mem_singleton_self _
  ordered := List.pairwise_singleton _ _
  origin := fun _ member => Or.inl (List.mem_singleton.mp member)
  passed := fun _ member => absurd member List.not_mem_nil

/-- Every known word comes before the words that the next arrival passes on. -/
theorem before_arriveNext {arrival : Arrival}
    (invariant : automaton.BreadthFirst style explored (arrival :: waiting))
    (symbol : Nat) :
    ∀ known ∈ explored ++ arrival :: waiting,
      known.word.Before (automaton.arriveNext arrival symbol).word := by
  intro known member
  rcases invariant.origin known member with
    rfl | ⟨previous, previousMember, other, _, rfl⟩
  · exact List.Shortlex.of_length_lt (by simp [arriveNext])
  · have earlier : previous.word.Before arrival.word :=
      (List.pairwise_append.mp invariant.ordered).2.2 previous previousMember
        arrival List.mem_cons_self
    exact earlier.concat _ _

/-- Exploring one more subset keeps the order of words. -/
theorem step (wellFormed : automaton.WellFormed) {arrival : Arrival}
    (invariant : automaton.BreadthFirst style explored (arrival :: waiting)) :
    ∃ fresh : List Arrival,
      fresh.map (·.subset) = Subset.unseen (automaton.subsetKey style)
        ((explored ++ arrival :: waiting).map (·.subset))
        (automaton.successors arrival.subset) ∧
      automaton.BreadthFirst style (explored ++ [arrival])
        (waiting ++ fresh) := by
  obtain ⟨fresh, kept, same, firsts⟩ := Subset.exists_fresh
    (automaton.subsetKey style) (arriveNext_ordered wellFormed arrival)
    ((explored ++ arrival :: waiting).map (·.subset))
  rw [← successors_eq_map] at same
  have regroup : explored ++ [arrival] ++ (waiting ++ fresh) =
      (explored ++ arrival :: waiting) ++ fresh := by simp
  have next : ∀ new ∈ fresh, ∃ symbol < automaton.alphabet.length,
      new = automaton.arriveNext arrival symbol := by
    intro new member
    obtain ⟨symbol, listed, rfl⟩ := List.mem_map.mp (kept.subset member)
    exact ⟨symbol, List.mem_range.mp listed, rfl⟩
  refine ⟨fresh, same, ?_⟩
  constructor
  · rw [regroup]
    exact List.mem_append_left _ invariant.initial_known
  · rw [regroup]
    refine List.pairwise_append.mpr ⟨invariant.ordered,
      (arriveNext_ordered wellFormed arrival).sublist kept, ?_⟩
    intro known member new newMember
    obtain ⟨symbol, _, rfl⟩ := next new newMember
    exact invariant.before_arriveNext symbol known member
  · rw [regroup]
    intro other member
    rcases List.mem_append.mp member with old | new
    · rcases invariant.origin other old with first | ⟨previous, early, found⟩
      · exact Or.inl first
      · exact Or.inr ⟨previous, List.mem_append_left _ early, found⟩
    · exact Or.inr ⟨arrival, by simp, next other new⟩
  · rw [regroup]
    intro other member symbol inRange
    rcases List.mem_append.mp member with old | last
    · obtain ⟨known, knownMember, found⟩ :=
        invariant.passed other old symbol inRange
      exact ⟨known, List.mem_append_left _ knownMember, found⟩
    · rw [List.mem_singleton.mp last]
      have candidate : automaton.arriveNext arrival symbol ∈
          automaton.symbolIndices.map (automaton.arriveNext arrival) :=
        List.mem_map_of_mem (List.mem_range.mpr inRange)
      rcases firsts _ candidate with
        ⟨subset, subsetMember, sameKey⟩ | ⟨first, firstMember, sameKey, order⟩
      · obtain ⟨known, knownMember, rfl⟩ := List.mem_map.mp subsetMember
        exact ⟨known, List.mem_append_left _ knownMember, sameKey,
          Or.inr (invariant.before_arriveNext symbol known knownMember)⟩
      · refine ⟨first, List.mem_append_right _ firstMember, sameKey, ?_⟩
        rcases order with rfl | before
        · exact Or.inl rfl
        · exact Or.inr before

end BreadthFirst

/-- What one step keeps, the whole search keeps. -/
theorem exists_arrivals (wellFormed : automaton.WellFormed)
    {exploredSubsets waitingSubsets found : List (List Nat)}
    (search : Subset.Search (automaton.subsetKey style) automaton.successors
      exploredSubsets waitingSubsets found)
    {explored waiting : List Arrival}
    (exploredEq : explored.map (·.subset) = exploredSubsets)
    (waitingEq : waiting.map (·.subset) = waitingSubsets)
    (invariant : automaton.BreadthFirst style explored waiting) :
    ∃ arrivals : List Arrival, arrivals.map (·.subset) = found ∧
      automaton.BreadthFirst style arrivals [] := by
  induction search generalizing explored waiting with
  | done exploredSubsets =>
      rw [List.map_eq_nil_iff.mp waitingEq] at invariant
      exact ⟨explored, exploredEq, invariant⟩
  | explore _ ih =>
      obtain ⟨arrival, later, rfl, rfl, rfl⟩ := List.map_eq_cons_iff.mp waitingEq
      subst exploredEq
      obtain ⟨fresh, freshEq, kept⟩ := invariant.step wellFormed
      apply ih _ _ kept
      · rw [List.map_append, List.map_singleton]
      · rw [List.map_append, freshEq, List.map_append, List.map_cons]

/-! ## Words of the deterministic automaton -/

/-- Of all words that lead to a state, the one before all others. -/
structure FirstWord (automaton : Automaton) (word : Word) (state : Nat) :
    Prop where
  leads : automaton.Run automaton.initial word state
  before : ∀ other, automaton.Run automaton.initial other state →
    other = word ∨ word.Before other

namespace BreadthFirst

variable {arrivals : List Arrival}
  (invariant : automaton.BreadthFirst style arrivals [])

include invariant

theorem induction {property : Arrival → Prop}
    (start : property ⟨[], [automaton.initial]⟩)
    (passes : ∀ arrival ∈ arrivals, property arrival →
      ∀ symbol < automaton.alphabet.length,
        property (automaton.arriveNext arrival symbol)) :
    ∀ arrival ∈ arrivals, property arrival := by
  intro arrival member
  have origin := invariant.origin
  rw [List.append_nil] at origin
  -- The arrival before has the word without its last symbol.
  generalize reached : arrival.word = word
  induction word using List.reverseRecOn generalizing arrival with
  | nil =>
      rcases origin arrival member with rfl | ⟨previous, _, symbol, _, rfl⟩
      · exact start
      · simp [arriveNext] at reached
  | append_singleton word label ih =>
      rcases origin arrival member with
        rfl | ⟨previous, early, symbol, inRange, rfl⟩
      · simp at reached
      · have shorter : previous.word = word :=
          (List.append_inj' reached rfl).1
        exact passes previous early (ih previous early shorter) symbol inRange

theorem activeAfter (wellFormed : automaton.WellFormed) :
    ∀ arrival ∈ arrivals,
      automaton.ActiveAfter arrival.word arrival.subset := by
  refine invariant.induction activeAfter_nil ?_
  intro arrival _ after symbol inRange
  exact after.concat (wellFormed.symbolIndex?_eq_some_iff.mpr ⟨inRange, rfl⟩)

variable {deterministic : Automaton}
  (stands : StandsFor automaton style deterministic)
  (found : arrivals.map (·.subset) = automaton.discovered style)

include stands found

omit invariant stands in
theorem subset_mem_representatives {arrival : Arrival}
    (member : arrival ∈ arrivals) :
    arrival.subset ∈ automaton.representatives style := by
  apply Subset.mem_arrange.mpr
  rw [← found]
  exact List.mem_map_of_mem member

/-- The word of an arrival leads to the state of its subset. -/
theorem run_arrival (wellFormed : automaton.WellFormed) :
    ∀ arrival ∈ arrivals, ∀ state,
      deterministic.stateIndex? (automaton.nameFor style arrival.subset) =
        some state →
      deterministic.Run deterministic.initial arrival.word state := by
  refine invariant.induction ?_ ?_
  · intro state named
    rw [stands.stateIndex?_initial] at named
    rw [← Option.some.inj named]
    exact .stay _
  · intro arrival member run symbol inRange state named
    have known := subset_mem_representatives found member
    obtain ⟨origin, originNamed⟩ := stands.exists_stateIndex? known
    obtain ⟨next, nextNamed, destinations⟩ :=
      stands.destinations_eq arrival.subset known origin originNamed symbol
        inRange
    apply run_concat_iff.mpr
    refine ⟨origin, symbol, run origin originNamed, ?_, ?_⟩
    · rw [stands.symbolIndex?_eq]
      exact wellFormed.symbolIndex?_eq_some_iff.mpr ⟨inRange, rfl⟩
    · rw [destinations, List.mem_singleton]
      exact Option.some.inj (named.symm.trans nextNamed)

/-- No word leads to a state before the word of its arrival. -/
theorem exists_arrival_of_run (wellFormed : automaton.WellFormed)
    {word : Word} {state : Nat}
    (run : deterministic.Run deterministic.initial word state) :
    ∃ arrival ∈ arrivals,
      deterministic.stateIndex? (automaton.nameFor style arrival.subset) =
        some state ∧
      (arrival.word = word ∨ arrival.word.Before word) := by
  induction word using List.reverseRecOn generalizing state with
  | nil =>
      cases run with
      | stay =>
          refine ⟨⟨[], [automaton.initial]⟩, ?_, stands.stateIndex?_initial,
            Or.inl rfl⟩
          simpa using invariant.initial_known
  | append_singleton word label ih =>
      obtain ⟨origin, symbol, before, known, leads⟩ := run_concat_iff.mp run
      rw [stands.symbolIndex?_eq] at known
      obtain ⟨inRange, rfl⟩ := wellFormed.symbolIndex?_eq_some_iff.mp known
      obtain ⟨arrival, member, named, order⟩ := ih before
      have passed := invariant.passed
      rw [List.append_nil] at passed
      obtain ⟨reached, reachedMember, sameKey, reachedOrder⟩ :=
        passed arrival member symbol inRange
      have reachedKnown := subset_mem_representatives found reachedMember
      obtain ⟨next, nextNamed, destinations⟩ := stands.destinations_eq
        arrival.subset (subset_mem_representatives found member) origin named
        symbol inRange
      rw [destinations, List.mem_singleton] at leads
      refine ⟨reached, reachedMember, ?_, ?_⟩
      · rw [leads, ← nextNamed]
        exact congrArg _ ((nameFor_inj ⟨_, reachedKnown, rfl⟩
          ⟨_, reachedKnown, sameKey⟩).mpr sameKey)
      · -- Both the arrival and what it leads to are on no later word.
        rcases order with rfl | earlier
        · exact reachedOrder
        · right
          rcases reachedOrder with same | before
          · rw [same]
            exact earlier.concat _ _
          · exact before.trans (earlier.concat _ _)

theorem firstWord (wellFormed : automaton.WellFormed) {arrival : Arrival}
    (member : arrival ∈ arrivals) {state : Nat}
    (named : deterministic.stateIndex?
      (automaton.nameFor style arrival.subset) = some state) :
    deterministic.FirstWord arrival.word state := by
  refine ⟨invariant.run_arrival stands found wellFormed arrival member state
    named, ?_⟩
  intro other run
  obtain ⟨reached, reachedMember, reachedNamed, order⟩ :=
    invariant.exists_arrival_of_run stands found wellFormed run
  have sameName := (stands.wellFormed.stateIndex?_eq_some_iff.mp
    reachedNamed).2.symm.trans
      (stands.wellFormed.stateIndex?_eq_some_iff.mp named).2
  have sameSubset := (nameFor_inj_of_mem wellFormed
    (subset_mem_representatives found reachedMember)
    (subset_mem_representatives found member)).mp sameName
  have distinct : (arrivals.map (·.subset)).Nodup := by
    rw [found]
    exact (Subset.arrange_perm _).nodup_iff.mp
      (representatives_nodup wellFormed style)
  have same : reached = arrival :=
    List.inj_on_of_nodup_map distinct reachedMember member sameSubset
  rw [same] at order
  exact order.imp Eq.symm id

end BreadthFirst

/-- Every state of the deterministic automaton stands for the set of states that
are active after the first word leading to it. -/
theorem subset_of_firstWord (wellFormed : automaton.WellFormed)
    (style : KeyStyle) :
    ∃ determinization,
      automaton.determinize style = .ok determinization ∧
      ∀ state < determinization.automaton.states.length,
        ∃ position word active,
          determinization.automaton.stateLabel state = subsetName position ∧
          determinization.automaton.FirstWord word state ∧
          automaton.ActiveAfter word active ∧
          determinization.subsets[position]? =
            some (automaton.subsetLabels active) := by
  obtain ⟨deterministic, succeeds, stands⟩ :=
    determinize_standsFor wellFormed style
  obtain ⟨arrivals, found, invariant⟩ :=
    exists_arrivals wellFormed (discovered_search wellFormed style) rfl rfl .start
  refine ⟨_, succeeds, ?_⟩
  intro state inRange
  obtain ⟨subset, member, named⟩ := stands.exists_representative inRange
  obtain ⟨position, listed⟩ := List.mem_iff_getElem?.mp member
  have discovered : subset ∈ arrivals.map (·.subset) := by
    rw [found]
    exact Subset.mem_arrange.mp member
  obtain ⟨arrival, arrived, rfl⟩ := List.mem_map.mp discovered
  refine ⟨position, arrival.word, arrival.subset, ?_, ?_,
    invariant.activeAfter wellFormed arrival arrived, ?_⟩
  · rw [← nameFor_of_getElem? wellFormed listed]
    exact (stands.wellFormed.stateIndex?_eq_some_iff.mp named).2
  · exact invariant.firstWord stands found wellFormed arrived named
  · rw [List.getElem?_map, listed]
    rfl

/-- What `colliding` becomes with concatenated keys: both `a` and `b` lead to the
third state. -/
def collided : Automaton where
  kind := .deterministic
  states := ["s0", "s1", "s2", "s3"]
  alphabet := ["a", "b"]
  initial := 1
  finals := [3]
  rows := [[[0], [0]], [[2], [2]], [[3], [0]], [[0], [0]]]

/-- The third state stands for the set reached by `a`, not for the other one with
its key, which `b` reaches. -/
theorem colliding_firstWord :
    colliding.determinize .concatenated =
        .ok ⟨collided, [[], ["0"], ["1", "23"], ["f"]]⟩ ∧
      collided.FirstWord ["a"] 2 ∧ collided.Run collided.initial ["b"] 2 ∧
      ∃ active, colliding.ActiveAfter ["a"] active ∧
        colliding.subsetLabels active = ["1", "23"] := by
  obtain ⟨determinization, succeeds, stands⟩ :=
    subset_of_firstWord colliding_wellFormed .concatenated
  have known : colliding.determinize .concatenated =
      .ok ⟨collided, [[], ["0"], ["1", "23"], ["f"]]⟩ := by decide +kernel
  rw [known, Except.ok.injEq] at succeeds
  subst succeeds
  obtain ⟨position, word, active, label, first, after, listed⟩ :=
    stands 2 (by decide)
  have position_eq : position = 2 :=
    subsetName_inj.mp (label.symm.trans (by decide +kernel))
  have onFirst : collided.Run collided.initial ["a"] 2 :=
    .read (rfl : collided.symbolIndex? "a" = some 0)
      (List.mem_singleton_self 2) (.stay 2)
  have onSecond : collided.Run collided.initial ["b"] 2 :=
    .read (rfl : collided.symbolIndex? "b" = some 1)
      (List.mem_singleton_self 2) (.stay 2)
  have word_eq : word = ["a"] := by
    rcases first.before _ onFirst with same | before
    · exact same.symm
    · rcases Word.before_iff.mp before with shorter | ⟨sameLength, below⟩
      · rw [List.length_eq_zero_iff.mp (Nat.lt_one_iff.mp shorter)] at first
        cases first.leads
      · obtain ⟨symbol, rfl⟩ := List.length_eq_one_iff.mp sameLength
        cases first.leads with
        | read found _ _ =>
            -- No symbol of the alphabet is below the first one.
            have listed : symbol ∈ ["a", "b"] :=
              List.isSome_idxOf?.mp (Option.isSome_of_eq_some found)
            rcases List.mem_pair.mp listed with rfl | rfl
            · exact absurd below (by decide)
            · exact absurd below (by decide)
  subst position_eq word_eq
  exact ⟨known, first, onSecond, active, after, (Option.some.inj listed).symm⟩

end Automaton

end Recognizer
