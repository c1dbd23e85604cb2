import Recognizer.Proofs.Learning.Independence
import Recognizer.Proofs.Learning.Tally

/-!
# Generalizing once more

The candidates of a run can be listed beforehand as transitions, because the labels
of the automaton never change.  In the first run each of them is tried once: it is
kept and stays there, or it is rolled back and nothing else ever adds it.  So what
was rolled back is what the automaton lacks in the end.

A second run meets the same candidates, in the order in which it visits the edges.
What is there already is passed over, and what is not there does harm again, as all
decisions are final.  Nothing is kept, and the candidates that are rolled back are
those of the first run in another order.
-/

namespace Recognizer

/-- The arrow leads from a state to a state under a symbol of the automaton. -/
structure Automaton.Spans (automaton : Automaton) (arrow : Arrow) : Prop where
  state_lt : arrow.state < automaton.states.length
  symbol_lt : arrow.symbol < automaton.alphabet.length
  destination_lt : arrow.destination < automaton.states.length

theorem Automaton.Spans.grow {base extended : Automaton} {arrow : Arrow}
    (spans : base.Spans arrow) (grows : Automaton.Extends base extended) :
    extended.Spans arrow where
  state_lt := grows.states_eq ▸ spans.state_lt
  symbol_lt := grows.alphabet_eq ▸ spans.symbol_lt
  destination_lt := grows.states_eq ▸ spans.destination_lt

/-- So many more candidates, which were all rolled back. -/
def Tally.rollBackMany (tally : Tally) (count : Nat) : Tally :=
  { tally with
    candidates := tally.candidates + count
    rolledBack := tally.rolledBack + count }

namespace Generalization

variable {harmful : Automaton → Bool} {base : Automaton}
  {run : Generalization}

/-- Tries one transition. -/
def tryArrow (harmful : Automaton → Bool) (run : Generalization)
    (arrow : Arrow) : Generalization :=
  attempt harmful arrow.state arrow.destination run arrow.symbol

/-- The transitions that are tried along an edge. -/
def candidates (automaton : Automaton) (edge : Edge) : List Arrow :=
  match automaton.stateIndex? (EdgeGraph.nodeLabel edge.origin),
    automaton.stateIndex? (EdgeGraph.nodeLabel edge.destination) with
  | some origin, some destination =>
      (missingSymbols automaton edge).map (⟨origin, ·, destination⟩)
  | _, _ => []

/-- The arrows that are not among the transitions of the automaton. -/
def lacking (automaton : Automaton) (arrows : List Arrow) : List Arrow :=
  arrows.filter fun arrow =>
    arrow.destination ∉ automaton.destinations arrow.state arrow.symbol

/-! ## The candidates of a run -/

theorem mem_candidates_iff {edge : Edge} {arrow : Arrow} :
    arrow ∈ candidates base edge ↔
      base.stateIndex? (EdgeGraph.nodeLabel edge.origin) = some arrow.state ∧
      base.stateIndex? (EdgeGraph.nodeLabel edge.destination) =
        some arrow.destination ∧
      arrow.symbol ∈ missingSymbols base edge := by
  obtain ⟨state, symbol, destination⟩ := arrow
  unfold candidates
  split
  · rename_i origin target originFound targetFound
    rw [originFound, targetFound, List.mem_map]
    simp only [Arrow.mk.injEq, Option.some.injEq]
    constructor
    · rintro ⟨_, member, rfl, rfl, rfl⟩
      exact ⟨rfl, rfl, member⟩
    · rintro ⟨rfl, rfl, member⟩
      exact ⟨symbol, member, rfl, rfl, rfl⟩
  · rename_i unknown
    simp only [List.not_mem_nil, false_iff]
    rintro ⟨originFound, destinationFound, _⟩
    exact unknown state destination originFound destinationFound

theorem candidates_of_extends {extended : Automaton}
    (grows : Automaton.Extends base extended) (edge : Edge) :
    candidates extended edge = candidates base edge := by
  unfold candidates
  rw [grows.stateIndex?, grows.stateIndex?, missingSymbols_of_extends grows]

theorem spans_of_mem_candidates (wellFormed : base.WellFormed)
    {edges : List Edge} :
    ∀ arrow ∈ edges.flatMap (candidates base), base.Spans arrow := by
  intro arrow member
  obtain ⟨edge, _, ofEdge⟩ := List.mem_flatMap.mp member
  obtain ⟨originFound, destinationFound, missing⟩ :=
    mem_candidates_iff.mp ofEdge
  exact
    { state_lt := (wellFormed.stateIndex?_eq_some_iff.mp originFound).1
      symbol_lt := (mem_missingSymbols.mp missing).1
      destination_lt :=
        (wellFormed.stateIndex?_eq_some_iff.mp destinationFound).1 }

theorem nodup_candidates (wellFormed : base.WellFormed) {edges : List Edge}
    (distinct : (edges.map Edge.ends).Nodup) :
    (edges.flatMap (candidates base)).Nodup := by
  apply List.nodup_flatMap.mpr
  constructor
  · intro edge _
    unfold candidates
    split
    · refine List.Nodup.map ?_ (List.nodup_range.filter _)
      intro first second same
      exact congrArg Arrow.symbol same
    · exact List.nodup_nil
  · refine (List.pairwise_map.mp distinct).imp ?_
    intro first second different
    apply List.disjoint_left.mpr
    intro arrow ofFirst ofSecond
    obtain ⟨firstOrigin, firstDestination, _⟩ := mem_candidates_iff.mp ofFirst
    obtain ⟨secondOrigin, secondDestination, _⟩ :=
      mem_candidates_iff.mp ofSecond
    have sameOrigin :=
      (wellFormed.stateIndex?_eq_some_iff.mp firstOrigin).2.symm.trans
        (wellFormed.stateIndex?_eq_some_iff.mp secondOrigin).2
    have sameDestination :=
      (wellFormed.stateIndex?_eq_some_iff.mp firstDestination).2.symm.trans
        (wellFormed.stateIndex?_eq_some_iff.mp secondDestination).2
    exact different (Prod.ext (EdgeGraph.nodeLabel_inj.mp sameOrigin)
      (EdgeGraph.nodeLabel_inj.mp sameDestination))

/-- The ends of the edge are states. -/
def Known (base : Automaton) (edge : Edge) : Prop :=
  (∃ origin, base.stateIndex? (EdgeGraph.nodeLabel edge.origin) =
    some origin) ∧
  ∃ destination, base.stateIndex? (EdgeGraph.nodeLabel edge.destination) =
    some destination

theorem forall_candidates (property : Arrow → Prop) {edges : List Edge}
    (all : ∀ edge ∈ edges, ∃ origin destination,
      base.stateIndex? (EdgeGraph.nodeLabel edge.origin) = some origin ∧
      base.stateIndex? (EdgeGraph.nodeLabel edge.destination) =
        some destination ∧
      ∀ symbol ∈ missingSymbols base edge,
        property ⟨origin, symbol, destination⟩) :
    (∀ edge ∈ edges, Known base edge) ∧
      ∀ arrow ∈ edges.flatMap (candidates base), property arrow := by
  constructor
  · intro edge member
    obtain ⟨origin, destination, originFound, destinationFound, _⟩ :=
      all edge member
    exact ⟨⟨origin, originFound⟩, destination, destinationFound⟩
  · intro arrow member
    obtain ⟨edge, edgeMember, ofEdge⟩ := List.mem_flatMap.mp member
    obtain ⟨originFound, destinationFound, missing⟩ :=
      mem_candidates_iff.mp ofEdge
    obtain ⟨origin, destination, isOrigin, isDestination, holds⟩ :=
      all edge edgeMember
    cases originFound.symm.trans isOrigin
    cases destinationFound.symm.trans isDestination
    exact holds arrow.symbol missing

theorem visit_eq_tries (grows : Automaton.Extends base run.automaton)
    {edge : Edge} (known : Known base edge) :
    visit harmful run edge =
      (candidates base edge).foldl (tryArrow harmful) run := by
  obtain ⟨⟨origin, originFound⟩, destination, destinationFound⟩ := known
  simp only [candidates, originFound, destinationFound, List.foldl_map]
  by_cases stopped : run.fault.isSome = true
  · rw [visit_of_stopped stopped]
    exact (attempts_of_stopped stopped origin destination _).symm
  · rw [visit, if_neg stopped, grows.stateIndex?, grows.stateIndex?]
    simp only [originFound, destinationFound, missingSymbols_of_extends grows]
    rfl

theorem visits_eq_tries (monotone : Monotone harmful)
    (wellFormed : run.automaton.WellFormed)
    (grows : Automaton.Extends base run.automaton) {edges : List Edge}
    (known : ∀ edge ∈ edges, Known base edge) :
    edges.foldl (visit harmful) run =
      (edges.flatMap (candidates base)).foldl (tryArrow harmful) run := by
  induction edges generalizing run with
  | nil => rfl
  | cons first later ih =>
      obtain ⟨firstKnown, laterKnown⟩ := List.forall_mem_cons.mp known
      have advanced := visit_advances monotone wellFormed first
      rw [List.foldl_cons, List.flatMap_cons, List.foldl_append,
        ih advanced.wellFormed (grows.trans advanced.grows) laterKnown,
        visit_eq_tries grows firstKnown]

/-! ## The first run -/

/-- What trying the arrows has led to: they are there or were rolled back, and
nothing else has changed. -/
structure Tried (arrows : List Arrow) (before after : Generalization) :
    Prop where
  keeps : ∀ arrow : Arrow,
    arrow.destination ∈
        before.automaton.destinations arrow.state arrow.symbol →
      arrow.destination ∈
        after.automaton.destinations arrow.state arrow.symbol
  within : ∀ arrow : Arrow,
    arrow.destination ∈
        after.automaton.destinations arrow.state arrow.symbol →
      arrow.destination ∈
          before.automaton.destinations arrow.state arrow.symbol ∨
        arrow ∈ arrows
  rolledBack_eq : after.tally.rolledBack =
    before.tally.rolledBack + (lacking after.automaton arrows).length

/-- An arrow that was rolled back is missing in the end, as only the others are
tried behind it. -/
theorem Tried.of_rolledBack {first : Arrow} {later : List Arrow}
    {after : Generalization}
    (tried : Tried later { run with tally := run.tally.rollBack } after)
    (isNew : first ∉ later)
    (absent : first.destination ∉
      run.automaton.destinations first.state first.symbol) :
    Tried (first :: later) run after where
  keeps := tried.keeps
  within arrow leads :=
    (tried.within arrow leads).imp_right (List.mem_cons_of_mem first)
  rolledBack_eq := by
    have lacks : first.destination ∉
        after.automaton.destinations first.state first.symbol :=
      fun leads => (tried.within first leads).elim absent isNew
    have counted := tried.rolledBack_eq
    simp only [Tally.rollBack] at counted
    rw [lacking, List.filter_cons_of_pos (by simpa using lacks), counted,
      List.length_cons, lacking]
    omega

/-- An arrow that was kept is there in the end. -/
theorem Tried.of_kept {first : Arrow} {later : List Arrow}
    {extended : Automaton} {after : Generalization}
    (tried : Tried later
      { run with automaton := extended, tally := run.tally.keep } after)
    (leadsIff : ∀ arrow : Arrow,
      arrow.destination ∈ extended.destinations arrow.state arrow.symbol ↔
        arrow = first ∨ arrow.destination ∈
          run.automaton.destinations arrow.state arrow.symbol) :
    Tried (first :: later) run after where
  keeps arrow old := tried.keeps arrow ((leadsIff arrow).mpr (Or.inr old))
  within arrow leads := by
    rcases tried.within arrow leads with sooner | member
    · rcases (leadsIff arrow).mp sooner with rfl | old
      · exact Or.inr List.mem_cons_self
      · exact Or.inl old
    · exact Or.inr (List.mem_cons_of_mem first member)
  rolledBack_eq := by
    have leads : first.destination ∈
        after.automaton.destinations first.state first.symbol :=
      tried.keeps first ((leadsIff first).mpr (Or.inl rfl))
    rw [lacking, List.filter_cons_of_neg (by simpa using leads)]
    exact tried.rolledBack_eq

theorem tried_of_absent (harmful : Automaton → Bool) {arrows : List Arrow}
    (running : run.fault = none) (wellFormed : run.automaton.WellFormed)
    (nondeterministic : run.automaton.kind = .nondeterministic)
    (distinct : arrows.Nodup)
    (spans : ∀ arrow ∈ arrows, run.automaton.Spans arrow)
    (absent : ∀ arrow ∈ arrows, arrow.destination ∉
      run.automaton.destinations arrow.state arrow.symbol) :
    Tried arrows run (arrows.foldl (tryArrow harmful) run) := by
  induction arrows generalizing run with
  | nil => exact ⟨fun _ => id, fun _ => Or.inl, rfl⟩
  | cons first later ih =>
      obtain ⟨isNew, laterDistinct⟩ := List.nodup_cons.mp distinct
      obtain ⟨firstSpans, laterSpans⟩ := List.forall_mem_cons.mp spans
      obtain ⟨firstAbsent, laterAbsent⟩ := List.forall_mem_cons.mp absent
      have outcome := attempt_outcome harmful first.destination running
        wellFormed firstSpans.state_lt firstSpans.symbol_lt
      rw [List.foldl_cons, tryArrow]
      generalize attempt harmful first.state first.destination run
        first.symbol = next at outcome ⊢
      cases outcome with
      | present present => exact absurd present firstAbsent
      | refused refused =>
          have deterministic := (Automaton.add_eq_error_iff.mp refused).2.1
          rw [nondeterministic] at deterministic
          cases deterministic
      | rolledBack _ _ =>
          refine Tried.of_rolledBack ?_ isNew firstAbsent
          exact ih running wellFormed nondeterministic laterDistinct
            laterSpans laterAbsent
      | @kept extended _ added _ =>
          have leadsIff (arrow : Arrow) :
              arrow.destination ∈
                  extended.destinations arrow.state arrow.symbol ↔
                arrow = first ∨ arrow.destination ∈
                  run.automaton.destinations arrow.state arrow.symbol :=
            wellFormed.leads_add_iff firstSpans.state_lt firstSpans.symbol_lt
              added
          have grows := wellFormed.extends_add firstSpans.state_lt
            firstSpans.symbol_lt added
          refine Tried.of_kept ?_ leadsIff
          refine ih running (wellFormed.add firstSpans.destination_lt added)
            (grows.kind_eq.trans nondeterministic) laterDistinct ?_ ?_
          · exact fun arrow member => (laterSpans arrow member).grow grows
          · intro arrow member leads
            rcases (leadsIff arrow).mp leads with rfl | old
            · exact isNew member
            · exact laterAbsent arrow member old

/-! ## The second run -/

/-- Of settled candidates nothing is kept: those that are there are passed over, and
the others are rolled back. -/
theorem tries_of_settled {arrows : List Arrow} (running : run.fault = none)
    (wellFormed : run.automaton.WellFormed)
    (spans : ∀ arrow ∈ arrows, run.automaton.Spans arrow)
    (settled : ∀ arrow ∈ arrows, Settled harmful run.automaton arrow.state
      arrow.destination arrow.symbol) :
    arrows.foldl (tryArrow harmful) run =
      { run with
        tally := run.tally.rollBackMany
          (lacking run.automaton arrows).length } := by
  induction arrows generalizing run with
  | nil => rfl
  | cons first later ih =>
      obtain ⟨firstSpans, laterSpans⟩ := List.forall_mem_cons.mp spans
      obtain ⟨firstSettled, laterSettled⟩ := List.forall_mem_cons.mp settled
      rw [List.foldl_cons]
      by_cases present : first.destination ∈
          run.automaton.destinations first.state first.symbol
      · have passed : tryArrow harmful run first = run :=
          attempt_of_present harmful running present
        rw [passed, ih running wellFormed laterSpans laterSettled, lacking,
          lacking, List.filter_cons_of_neg (by simpa using present)]
      · obtain ⟨extended, record, added, harm⟩ :=
          firstSettled.resolve_left present
        have rolledBack : tryArrow harmful run first =
            { run with tally := run.tally.rollBack } := by
          rw [tryArrow, attempt_of_added harmful running wellFormed
            firstSpans.state_lt firstSpans.symbol_lt present added]
          exact if_pos harm
        rw [rolledBack, @ih { run with tally := run.tally.rollBack } running
          wellFormed laterSpans laterSettled, lacking, lacking,
          List.filter_cons_of_pos (by simpa using present)]
        simp only [Tally.rollBackMany, Tally.rollBack, List.length_cons,
          Nat.add_assoc, Nat.add_comm 1]

theorem visits_of_settled (monotone : Monotone harmful)
    {automaton : Automaton} (wellFormed : automaton.WellFormed)
    {edges : List Edge}
    (settled : ∀ edge ∈ edges, EdgeSettled harmful automaton edge) :
    edges.foldl (visit harmful) (start automaton) =
      { automaton := automaton
        tally := Tally.zero.rollBackMany
          (lacking automaton (edges.flatMap (candidates automaton))).length
        fault := none } := by
  obtain ⟨known, arrowsSettled⟩ := forall_candidates
    (fun arrow => Settled harmful automaton arrow.state arrow.destination
      arrow.symbol) settled
  rw [visits_eq_tries monotone wellFormed (Automaton.Extends.refl automaton)
    known, tries_of_settled rfl wellFormed
    (spans_of_mem_candidates wellFormed) arrowsSettled]
  rfl

/-! ## Both runs -/

/-- A run that has tried untouched candidates along different edges has changed
nothing that a second run would change, in whatever order the edges are visited
again. -/
theorem visits_again (monotone : Monotone harmful)
    (wellFormed : base.WellFormed)
    (nondeterministic : base.kind = .nondeterministic)
    {edges reordered : List Edge} (distinct : (edges.map Edge.ends).Nodup)
    (untouched : ∀ edge ∈ edges, Untouched base base edge)
    (again : reordered.Perm edges) {first : Generalization}
    (isFirst : edges.foldl (visit harmful) (start base) = first)
    (succeeds : first.fault = none) :
    reordered.foldl (visit harmful) (start first.automaton) =
      { automaton := first.automaton
        tally := Tally.zero.rollBackMany first.tally.rolledBack
        fault := none } := by
  have advanced : Advances harmful (start base)
      (edges.foldl (visit harmful) (start base)) :=
    visits_advance monotone wellFormed edges
  have settled : (edges.foldl (visit harmful) (start base)).fault = none →
      ∀ edge ∈ edges, EdgeSettled harmful
        (edges.foldl (visit harmful) (start base)).automaton edge :=
    visits_settle monotone (start base) wellFormed nondeterministic
  obtain ⟨known, absent⟩ := forall_candidates
    (fun arrow => arrow.destination ∉
      base.destinations arrow.state arrow.symbol) untouched
  have tried : Tried (edges.flatMap (candidates base)) (start base)
      (edges.foldl (visit harmful) (start base)) := by
    rw [visits_eq_tries monotone wellFormed (Automaton.Extends.refl base)
      known]
    exact tried_of_absent harmful rfl wellFormed nondeterministic
      (nodup_candidates wellFormed distinct)
      (spans_of_mem_candidates wellFormed) absent
  rw [isFirst] at advanced settled tried
  have counted : first.tally.rolledBack = (lacking first.automaton
      (edges.flatMap (candidates base))).length :=
    tried.rolledBack_eq.trans (Nat.zero_add _)
  -- The candidates are those of the first run in another order.
  have sameCandidates : candidates first.automaton = candidates base :=
    funext (candidates_of_extends advanced.grows)
  have reorderedCandidates :
      (lacking first.automaton (reordered.flatMap (candidates base))).Perm
        (lacking first.automaton (edges.flatMap (candidates base))) :=
    (again.flatMap_right _).filter _
  rw [visits_of_settled monotone advanced.wellFormed
    (fun edge member => settled succeeds edge (again.mem_iff.mp member)),
    sameCandidates, counted, reorderedCandidates.length_eq]

end Generalization

namespace Training

/-- A second generalization with the same negative words changes nothing, whatever
the number of workers and the order of the edges are: what was kept is passed over,
and what was rolled back is rolled back again. -/
theorem generalize_again (workers : Nat) (positive negative : List Word) :
    ∃ ranked exact first,
      (Trie.ofWords positive).edgeGraph.rank? = some ranked ∧
      (Trie.ofWords positive).edgeGraph.exactAutomaton = .ok exact ∧
      exact.generalize workers negative (ranked.map RankedEdge.edge) =
        first ∧
      first.fault = none ∧
      ∀ (otherWorkers : Nat) (reordered : List RankedEdge),
        reordered.Perm ranked →
        first.automaton.generalize otherWorkers negative
            (reordered.map RankedEdge.edge) =
          { automaton := first.automaton
            tally :=
              { candidates := first.tally.rolledBack
                kept := 0
                rolledBack := first.tally.rolledBack }
            fault := none } := by
  obtain ⟨exact, first, built, realizes, ran, succeeds, _⟩ :=
    ofWords_run workers positive negative
  have placed := (Trie.ofWords positive).edgeGraph.ranked_edges_perm
  have distinct := (Trie.edgeGraph_built (Trie.ofWords positive)).endsDistinct
  have untouched : ∀ edge ∈ (Trie.ofWords positive).edgeGraph.ranked.map
      RankedEdge.edge, Generalization.Untouched exact exact edge := by
    intro edge member
    exact realizes.untouched (Trie.edgeGraph_closed positive)
      (Trie.edgeGraph_labelled _) distinct (placed.mem_iff.mp member)
  refine ⟨_, exact, first, EdgeGraph.rank?_eq_some_ranked _, built, ran,
    succeeds, ?_⟩
  intro otherWorkers reordered again
  have settled := Generalization.visits_again
    (Generalization.monotone_acceptsAny workers negative) realizes.wellFormed
    realizes.kind_eq ((placed.map Edge.ends).nodup_iff.mpr distinct) untouched
    (again.map RankedEdge.edge) ran succeeds
  rw [Automaton.generalize_congr (fun _ => Iff.rfl) _ otherWorkers workers,
    Automaton.generalize, settled]
  simp [Tally.rollBackMany, Tally.zero]

/-- Of six candidates four are kept.  The second run visits the edges the other way
round and tries only the two that were rolled back. -/
theorem backwards_again :
    ∃ ranked exact first,
      (Trie.ofWords [["a", "b"], ["c"]]).edgeGraph.rank? = some ranked ∧
      (Trie.ofWords [["a", "b"], ["c"]]).edgeGraph.exactAutomaton =
        .ok exact ∧
      exact.generalize 0 [["b"], ["a", "a"]] (ranked.map RankedEdge.edge) =
        first ∧
      first.tally = ⟨6, 4, 2⟩ ∧
      ranked.reverse ≠ ranked ∧
      first.automaton.generalize 9 [["b"], ["a", "a"]]
          (ranked.reverse.map RankedEdge.edge) =
        ⟨first.automaton, ⟨2, 0, 2⟩, none⟩ := by
  obtain ⟨ranked, exact, first, isRanking, built, isFirst, _, settled⟩ :=
    generalize_again 0 [["a", "b"], ["c"]] [["b"], ["a", "a"]]
  have evaluated : ((Trie.ofWords [["a", "b"], ["c"]]).edgeGraph.exactAutomaton
      |>.toOption.map fun automaton =>
        (automaton.generalize 0 [["b"], ["a", "a"]]
          (((Trie.ofWords [["a", "b"], ["c"]]).edgeGraph.rank?.getD []).map
            RankedEdge.edge)).tally) = some ⟨6, 4, 2⟩ := by decide +kernel
  have turned : ((Trie.ofWords [["a", "b"], ["c"]]).edgeGraph.rank?.map
      fun edges => decide (edges.reverse = edges)) = some false := by
    decide +kernel
  rw [isRanking] at evaluated turned
  rw [built] at evaluated
  have tally : first.tally = ⟨6, 4, 2⟩ := isFirst ▸ Option.some.inj evaluated
  have other : ranked.reverse ≠ ranked :=
    of_decide_eq_false (Option.some.inj turned)
  have second := settled 9 ranked.reverse ranked.reverse_perm
  rw [tally] at second
  exact ⟨ranked, exact, first, isRanking, built, isFirst, tally, other, second⟩

end Training

end Recognizer
