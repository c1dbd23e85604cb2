import Recognizer.Learning.Generalization
import Recognizer.Proofs.Automaton.Additions
import Recognizer.Proofs.Learning.Screening

/-!
# What a generalization keeps

One attempt has four outcomes, which `Attempt` lists.  Whatever the outcome, no
transition is lost, a harmless automaton stays harmless, and a harmful one is
left alone, because acceptance is monotone.  All three pass from the attempts to
the visit of an edge and on to the whole run.

The same monotonicity makes the decisions final.  A candidate that was rolled
back would be harmful in every later automaton too, so at the end of a run
without faults no candidate is left that could still be kept.
-/

namespace Recognizer

namespace Generalization

variable {harmful : Automaton → Bool}

/-- More transitions never make an automaton harmless. -/
def Monotone (harmful : Automaton → Bool) : Prop :=
  ∀ {base extended : Automaton}, Automaton.Extends base extended →
    harmful base = true → harmful extended = true

theorem monotone_acceptsAny (workers : Nat) (negative : List Word) :
    Monotone fun automaton => automaton.acceptsAny workers negative := by
  intro base extended grows harm
  obtain ⟨word, member, accepted⟩ := Automaton.acceptsAny_iff.mp harm
  exact Automaton.acceptsAny_iff.mpr ⟨word, member, grows.accepts accepted⟩

/-! ## Stopped runs -/

section Stopped

variable {run : Generalization} (stopped : run.fault.isSome = true)

include stopped

theorem attempt_of_stopped (origin destination symbol : Nat) :
    attempt harmful origin destination run symbol = run := by
  rw [attempt, if_pos stopped]

theorem attempts_of_stopped (origin destination : Nat) (symbols : List Nat) :
    symbols.foldl (attempt harmful origin destination) run = run :=
  List.foldl_fixed' (attempt_of_stopped stopped origin destination) symbols

theorem visit_of_stopped (edge : Edge) : visit harmful run edge = run := by
  rw [visit, if_pos stopped]

theorem visits_of_stopped (edges : List Edge) :
    edges.foldl (visit harmful) run = run :=
  List.foldl_fixed' (visit_of_stopped stopped) edges

end Stopped

/-- A run that ends without a fault had none before, since a stopped run stays
as it is. -/
theorem running_before {run after : Generalization}
    (stays : run.fault.isSome = true → after = run)
    (succeeds : after.fault = none) : run.fault = none := by
  cases running : run.fault with
  | none => rfl
  | some fault =>
      rw [stays (by simp [running]), running] at succeeds
      cases succeeds

/-! ## One attempt -/

/-- The outcomes of an attempt in a run that has not stopped. -/
inductive Attempt (harmful : Automaton → Bool)
    (origin destination symbol : Nat) (run : Generalization) :
    Generalization → Prop where
  | present :
      destination ∈ run.automaton.destinations origin symbol →
      Attempt harmful origin destination symbol run run
  | refused {violation : DeterminismViolation} :
      run.automaton.add origin symbol destination = .error violation →
      Attempt harmful origin destination symbol run
        (run.stop (.determinism violation))
  | rolledBack {extended : Automaton} {record : Undo} :
      run.automaton.add origin symbol destination = .ok (extended, record) →
      harmful extended = true →
      Attempt harmful origin destination symbol run
        { run with tally := run.tally.rollBack }
  | kept {extended : Automaton} {record : Undo} :
      run.automaton.add origin symbol destination = .ok (extended, record) →
      harmful extended = false →
      Attempt harmful origin destination symbol run
        { run with automaton := extended, tally := run.tally.keep }

theorem attempt_of_present (harmful : Automaton → Bool)
    {run : Generalization} (running : run.fault = none)
    {origin symbol destination : Nat}
    (present : destination ∈ run.automaton.destinations origin symbol) :
    attempt harmful origin destination run symbol = run := by
  have notStopped : ¬ run.fault.isSome = true := by simp [running]
  have added := Automaton.add_eq_ok_iff.mpr
    ⟨rfl, Or.inl ⟨present, Eq.refl run.automaton⟩⟩
  have noop : Undo.isNoop
      ⟨origin, symbol, run.automaton.destinations origin symbol⟩
      run.automaton = true := Undo.isNoop_iff.mpr rfl
  rw [attempt, if_neg notStopped, Automaton.addTransition_of_ok added]
  exact if_pos noop

theorem attempt_of_added (harmful : Automaton → Bool)
    {run : Generalization} (running : run.fault = none)
    (wellFormed : run.automaton.WellFormed) {origin symbol destination : Nat}
    (originInRange : origin < run.automaton.states.length)
    (symbolInRange : symbol < run.automaton.alphabet.length)
    (absent : destination ∉ run.automaton.destinations origin symbol)
    {extended : Automaton} {record : Undo}
    (added : run.automaton.add origin symbol destination =
      .ok (extended, record)) :
    attempt harmful origin destination run symbol =
      if harmful extended then { run with tally := run.tally.rollBack }
      else { run with automaton := extended, tally := run.tally.keep } := by
  have notStopped : ¬ run.fault.isSome = true := by simp [running]
  have noop := wellFormed.isNoop_add originInRange symbolInRange added
  rw [attempt, if_neg notStopped, Automaton.addTransition_of_ok added]
  simp only [if_neg (mt noop.mp absent), Automaton.undo_add added]

theorem attempt_outcome (harmful : Automaton → Bool) (destination : Nat)
    {run : Generalization} (running : run.fault = none)
    (wellFormed : run.automaton.WellFormed) {origin symbol : Nat}
    (originInRange : origin < run.automaton.states.length)
    (symbolInRange : symbol < run.automaton.alphabet.length) :
    Attempt harmful origin destination symbol run
      (attempt harmful origin destination run symbol) := by
  by_cases present : destination ∈ run.automaton.destinations origin symbol
  · rw [attempt_of_present harmful running present]
    exact .present present
  · cases added : run.automaton.add origin symbol destination with
    | error violation =>
        have notStopped : ¬ run.fault.isSome = true := by simp [running]
        rw [attempt, if_neg notStopped, Automaton.addTransition_of_error added]
        exact .refused added
    | ok result =>
        obtain ⟨extended, record⟩ := result
        rw [attempt_of_added harmful running wellFormed originInRange
          symbolInRange present added]
        cases verdict : harmful extended with
        | true => exact .rolledBack added verdict
        | false => exact .kept added verdict

/-! ## What a run keeps -/

/-- What holds between an earlier and a later moment of a run. -/
structure Advances (harmful : Automaton → Bool)
    (before after : Generalization) : Prop where
  wellFormed : after.automaton.WellFormed
  grows : Automaton.Extends before.automaton after.automaton
  harmless : harmful before.automaton = false →
    harmful after.automaton = false
  unchanged : harmful before.automaton = true →
    after.automaton = before.automaton

namespace Advances

theorem refl {run : Generalization}
    (wellFormed : run.automaton.WellFormed) : Advances harmful run run where
  wellFormed := wellFormed
  grows := Automaton.Extends.refl run.automaton
  harmless := fun verdict => verdict
  unchanged := fun _ => rfl

theorem trans {first second third : Generalization}
    (earlier : Advances harmful first second)
    (later : Advances harmful second third) :
    Advances harmful first third where
  wellFormed := later.wellFormed
  grows := earlier.grows.trans later.grows
  harmless := fun verdict => later.harmless (earlier.harmless verdict)
  unchanged := by
    intro verdict
    have same := earlier.unchanged verdict
    rw [later.unchanged (same ▸ verdict), same]

theorem stop {run : Generalization}
    (wellFormed : run.automaton.WellFormed) (fault : LearningFault) :
    Advances harmful run (run.stop fault) where
  wellFormed := wellFormed
  grows := Automaton.Extends.refl run.automaton
  harmless := fun verdict => verdict
  unchanged := fun _ => rfl

end Advances

theorem mem_missingSymbols {automaton : Automaton} {edge : Edge}
    {symbol : Nat} :
    symbol ∈ missingSymbols automaton edge ↔
      symbol < automaton.alphabet.length ∧
        automaton.symbolLabel symbol ∉ edge.labels := by
  simp [missingSymbols, Automaton.symbolIndices]

theorem missingSymbols_of_extends {base extended : Automaton}
    (grows : Automaton.Extends base extended) (edge : Edge) :
    missingSymbols extended edge = missingSymbols base edge := by
  unfold missingSymbols Automaton.symbolIndices Automaton.symbolLabel
  rw [grows.alphabet_eq]

section Keeps

variable (monotone : Monotone harmful)

include monotone

theorem attempt_advances {run : Generalization}
    (wellFormed : run.automaton.WellFormed)
    {origin destination symbol : Nat}
    (originInRange : origin < run.automaton.states.length)
    (destinationInRange : destination < run.automaton.states.length)
    (symbolInRange : symbol < run.automaton.alphabet.length) :
    Advances harmful run
      (attempt harmful origin destination run symbol) := by
  cases running : run.fault with
  | some fault =>
      rw [attempt_of_stopped (by simp [running])]
      exact Advances.refl wellFormed
  | none =>
      have outcome := attempt_outcome harmful destination running wellFormed
        originInRange symbolInRange
      generalize attempt harmful origin destination run symbol = after
        at outcome
      cases outcome with
      | present _ => exact Advances.refl wellFormed
      | refused _ => exact Advances.stop wellFormed _
      | rolledBack _ _ =>
          exact
            { wellFormed := wellFormed
              grows := Automaton.Extends.refl run.automaton
              harmless := fun verdict => verdict
              unchanged := fun _ => rfl }
      | kept added verdict =>
          have grows := wellFormed.extends_add originInRange symbolInRange
            added
          refine
            { wellFormed := wellFormed.add destinationInRange added
              grows := grows
              harmless := fun _ => verdict
              unchanged := ?_ }
          intro harm
          rw [monotone grows harm] at verdict
          cases verdict

theorem attempts_advance {run : Generalization}
    (wellFormed : run.automaton.WellFormed) {origin destination : Nat}
    (originInRange : origin < run.automaton.states.length)
    (destinationInRange : destination < run.automaton.states.length)
    {symbols : List Nat}
    (symbolsInRange : ∀ symbol ∈ symbols,
      symbol < run.automaton.alphabet.length) :
    Advances harmful run
      (symbols.foldl (attempt harmful origin destination) run) := by
  apply List.foldlRecOn
  · exact Advances.refl wellFormed
  · intro current advanced symbol member
    apply advanced.trans
    apply attempt_advances monotone advanced.wellFormed
    · rw [advanced.grows.states_eq]
      exact originInRange
    · rw [advanced.grows.states_eq]
      exact destinationInRange
    · rw [advanced.grows.alphabet_eq]
      exact symbolsInRange symbol member

theorem visit_advances {run : Generalization}
    (wellFormed : run.automaton.WellFormed) (edge : Edge) :
    Advances harmful run (visit harmful run edge) := by
  unfold visit
  split
  · exact Advances.refl wellFormed
  · split
    · exact Advances.stop wellFormed _
    · rename_i origin originFound
      split
      · exact Advances.stop wellFormed _
      · rename_i destination destinationFound
        apply attempts_advance monotone wellFormed
        · exact (wellFormed.stateIndex?_eq_some_iff.mp originFound).1
        · exact (wellFormed.stateIndex?_eq_some_iff.mp destinationFound).1
        · intro symbol member
          exact (mem_missingSymbols.mp member).1

/-- A run keeps the shape, all transitions and the verdict; an automaton that
is harmful at the start is left alone. -/
theorem visits_advance {run : Generalization}
    (wellFormed : run.automaton.WellFormed) (edges : List Edge) :
    Advances harmful run (edges.foldl (visit harmful) run) := by
  apply List.foldlRecOn
  · exact Advances.refl wellFormed
  · intro current advanced edge _
    exact advanced.trans (visit_advances monotone advanced.wellFormed edge)

end Keeps

/-! ## Runs without faults -/

section Runs

variable (monotone : Monotone harmful)

theorem attempt_running (harmful : Automaton → Bool) (destination : Nat)
    {run : Generalization} (running : run.fault = none)
    (wellFormed : run.automaton.WellFormed)
    (nondeterministic : run.automaton.kind = .nondeterministic)
    {origin symbol : Nat}
    (originInRange : origin < run.automaton.states.length)
    (symbolInRange : symbol < run.automaton.alphabet.length) :
    (attempt harmful origin destination run symbol).fault = none := by
  have outcome := attempt_outcome harmful destination running wellFormed
    originInRange symbolInRange
  generalize attempt harmful origin destination run symbol = after at *
  cases outcome with
  | present _ => exact running
  | refused refused =>
      have deterministic := (Automaton.add_eq_error_iff.mp refused).2.1
      rw [nondeterministic] at deterministic
      cases deterministic
  | rolledBack _ _ => exact running
  | kept _ _ => exact running

include monotone

theorem attempts_running {run : Generalization} (running : run.fault = none)
    (wellFormed : run.automaton.WellFormed)
    (nondeterministic : run.automaton.kind = .nondeterministic)
    {origin destination : Nat}
    (originInRange : origin < run.automaton.states.length)
    (destinationInRange : destination < run.automaton.states.length)
    {symbols : List Nat}
    (symbolsInRange : ∀ symbol ∈ symbols,
      symbol < run.automaton.alphabet.length) :
    (symbols.foldl (attempt harmful origin destination) run).fault = none := by
  induction symbols generalizing run with
  | nil => exact running
  | cons first later ih =>
      have firstInRange := symbolsInRange first List.mem_cons_self
      have advanced := attempt_advances monotone wellFormed originInRange
        destinationInRange firstInRange
      have runs := attempt_running harmful destination running wellFormed
        nondeterministic originInRange firstInRange
      rw [List.foldl_cons]
      apply ih runs advanced.wellFormed
      · exact advanced.grows.kind_eq.trans nondeterministic
      · rw [advanced.grows.states_eq]
        exact originInRange
      · rw [advanced.grows.states_eq]
        exact destinationInRange
      · intro symbol member
        rw [advanced.grows.alphabet_eq]
        exact symbolsInRange symbol (List.mem_cons_of_mem _ member)

/-- A run along edges between states meets no fault. -/
theorem visits_running {run : Generalization} (running : run.fault = none)
    (wellFormed : run.automaton.WellFormed)
    (nondeterministic : run.automaton.kind = .nondeterministic)
    {edges : List Edge}
    (known : ∀ edge ∈ edges,
      (∃ origin, run.automaton.stateIndex?
        (EdgeGraph.nodeLabel edge.origin) = some origin) ∧
      ∃ destination, run.automaton.stateIndex?
        (EdgeGraph.nodeLabel edge.destination) = some destination) :
    (edges.foldl (visit harmful) run).fault = none := by
  induction edges generalizing run with
  | nil => exact running
  | cons first later ih =>
      have advanced := visit_advances monotone wellFormed first
      have runs : (visit harmful run first).fault = none := by
        obtain ⟨⟨origin, originFound⟩, destination, destinationFound⟩ :=
          known first List.mem_cons_self
        have notStopped : ¬ run.fault.isSome = true := by simp [running]
        rw [visit, if_neg notStopped]
        simp only [originFound, destinationFound]
        exact attempts_running monotone running wellFormed nondeterministic
          (wellFormed.stateIndex?_eq_some_iff.mp originFound).1
          (wellFormed.stateIndex?_eq_some_iff.mp destinationFound).1
          (fun symbol member => (mem_missingSymbols.mp member).1)
      rw [List.foldl_cons]
      apply ih runs advanced.wellFormed
      · exact advanced.grows.kind_eq.trans nondeterministic
      · intro edge member
        rw [advanced.grows.stateIndex?, advanced.grows.stateIndex?]
        exact known edge (List.mem_cons_of_mem _ member)

end Runs

/-! ## Decisions are final -/

/-- The candidate was kept, or adding it does harm. -/
def Settled (harmful : Automaton → Bool) (automaton : Automaton)
    (origin destination symbol : Nat) : Prop :=
  destination ∈ automaton.destinations origin symbol ∨
    ∃ extended record,
      automaton.add origin symbol destination = .ok (extended, record) ∧
        harmful extended = true

/-- The ends of the edge are states, and all its candidates are settled. -/
def EdgeSettled (harmful : Automaton → Bool) (automaton : Automaton)
    (edge : Edge) : Prop :=
  ∃ origin destination,
    automaton.stateIndex? (EdgeGraph.nodeLabel edge.origin) = some origin ∧
    automaton.stateIndex? (EdgeGraph.nodeLabel edge.destination) =
      some destination ∧
    ∀ symbol ∈ missingSymbols automaton edge,
      Settled harmful automaton origin destination symbol

section Final

variable (monotone : Monotone harmful)

include monotone

theorem Settled.grow {base extended : Automaton}
    {origin destination symbol : Nat}
    (settled : Settled harmful base origin destination symbol)
    (grows : Automaton.Extends base extended)
    (baseShape : base.WellFormed) (extendedShape : extended.WellFormed)
    (nondeterministic : base.kind = .nondeterministic)
    (originInRange : origin < base.states.length)
    (symbolInRange : symbol < base.alphabet.length) :
    Settled harmful extended origin destination symbol := by
  rcases settled with present | ⟨baseAdded, baseRecord, added, harm⟩
  · exact Or.inl (grows.keeps present)
  · obtain ⟨extendedAdded, extendedRecord, extendedAddition⟩ :=
      Automaton.add_of_nondeterministic
        (grows.kind_eq.trans nondeterministic) origin symbol destination
    refine Or.inr ⟨extendedAdded, extendedRecord, extendedAddition, ?_⟩
    exact monotone
      (grows.add baseShape extendedShape originInRange symbolInRange added
        extendedAddition) harm

theorem EdgeSettled.grow {base extended : Automaton} {edge : Edge}
    (settled : EdgeSettled harmful base edge)
    (grows : Automaton.Extends base extended)
    (baseShape : base.WellFormed) (extendedShape : extended.WellFormed)
    (nondeterministic : base.kind = .nondeterministic) :
    EdgeSettled harmful extended edge := by
  obtain ⟨origin, destination, originFound, destinationFound, all⟩ := settled
  refine ⟨origin, destination, (grows.stateIndex? _).trans originFound,
    (grows.stateIndex? _).trans destinationFound, ?_⟩
  intro symbol member
  rw [missingSymbols_of_extends grows] at member
  exact (all symbol member).grow monotone grows baseShape extendedShape
    nondeterministic
    (baseShape.stateIndex?_eq_some_iff.mp originFound).1
    (mem_missingSymbols.mp member).1

omit monotone in
/-- An attempt that does not stop the run settles its candidate. -/
theorem attempt_settles (harmful : Automaton → Bool) (destination : Nat)
    {run : Generalization} (wellFormed : run.automaton.WellFormed)
    {origin symbol : Nat}
    (originInRange : origin < run.automaton.states.length)
    (symbolInRange : symbol < run.automaton.alphabet.length)
    (succeeds : (attempt harmful origin destination run symbol).fault = none) :
    Settled harmful (attempt harmful origin destination run symbol).automaton
      origin destination symbol := by
  have running : run.fault = none :=
    running_before (fun stopped => attempt_of_stopped stopped _ _ _) succeeds
  have outcome := attempt_outcome harmful destination running wellFormed
    originInRange symbolInRange
  generalize attempt harmful origin destination run symbol = after at *
  cases outcome with
  | present present => exact Or.inl present
  | refused _ => cases succeeds
  | rolledBack added harm => exact Or.inr ⟨_, _, added, harm⟩
  | kept added _ =>
      exact Or.inl ((wellFormed.mem_destinations_add originInRange
        symbolInRange added destination).mpr (Or.inl rfl))

theorem attempts_settle {run : Generalization}
    (wellFormed : run.automaton.WellFormed)
    (nondeterministic : run.automaton.kind = .nondeterministic)
    {origin destination : Nat}
    (originInRange : origin < run.automaton.states.length)
    (destinationInRange : destination < run.automaton.states.length)
    {symbols : List Nat}
    (symbolsInRange : ∀ symbol ∈ symbols,
      symbol < run.automaton.alphabet.length)
    (succeeds : (symbols.foldl (attempt harmful origin destination)
      run).fault = none) :
    ∀ symbol ∈ symbols,
      Settled harmful
        (symbols.foldl (attempt harmful origin destination) run).automaton
        origin destination symbol := by
  induction symbols generalizing run with
  | nil => exact fun _ member => absurd member List.not_mem_nil
  | cons first later ih =>
      have firstInRange := symbolsInRange first (by simp)
      have laterInRange : ∀ symbol ∈ later,
          symbol < run.automaton.alphabet.length :=
        fun symbol member => symbolsInRange symbol (by simp [member])
      rw [List.foldl_cons] at succeeds ⊢
      have advanced := attempt_advances monotone wellFormed originInRange
        destinationInRange firstInRange
      have afterFirst := attempt_settles harmful destination wellFormed
        originInRange firstInRange
      generalize attempt harmful origin destination run first = after at *
      rw [← advanced.grows.states_eq] at originInRange destinationInRange
      rw [← advanced.grows.alphabet_eq] at firstInRange laterInRange
      have afterKind := advanced.grows.kind_eq.trans nondeterministic
      have rest := attempts_advance monotone advanced.wellFormed
        originInRange destinationInRange laterInRange
      have afterRuns : after.fault = none :=
        running_before (fun stopped => attempts_of_stopped stopped _ _ _)
          succeeds
      -- The first symbol is settled right away, and what comes after it only
      -- adds transitions.
      intro symbol member
      rcases List.mem_cons.mp member with rfl | laterMember
      · exact (afterFirst afterRuns).grow monotone rest.grows
          advanced.wellFormed rest.wellFormed afterKind originInRange
          firstInRange
      · exact ih advanced.wellFormed afterKind originInRange
          destinationInRange laterInRange succeeds symbol laterMember

/-- Visiting an edge without a fault settles all its candidates. -/
theorem visit_settles {run : Generalization}
    (wellFormed : run.automaton.WellFormed)
    (nondeterministic : run.automaton.kind = .nondeterministic) {edge : Edge}
    (running : run.fault = none)
    (succeeds : (visit harmful run edge).fault = none) :
    EdgeSettled harmful (visit harmful run edge).automaton edge := by
  have advanced := visit_advances monotone wellFormed edge
  have notStopped : ¬ run.fault.isSome = true := by simp [running]
  rw [visit, if_neg notStopped] at succeeds advanced ⊢
  cases originFound : run.automaton.stateIndex?
      (EdgeGraph.nodeLabel edge.origin) with
  | none =>
      simp only [originFound] at succeeds
      cases succeeds
  | some origin =>
      cases destinationFound : run.automaton.stateIndex?
          (EdgeGraph.nodeLabel edge.destination) with
      | none =>
          simp only [originFound, destinationFound] at succeeds
          cases succeeds
      | some destination =>
          simp only [originFound, destinationFound] at succeeds advanced ⊢
          refine ⟨origin, destination,
            (advanced.grows.stateIndex? _).trans originFound,
            (advanced.grows.stateIndex? _).trans destinationFound, ?_⟩
          rw [missingSymbols_of_extends advanced.grows]
          exact attempts_settle monotone wellFormed nondeterministic
            (wellFormed.stateIndex?_eq_some_iff.mp originFound).1
            (wellFormed.stateIndex?_eq_some_iff.mp destinationFound).1
            (fun symbol member => (mem_missingSymbols.mp member).1) succeeds

theorem visits_settle (run : Generalization)
    (wellFormed : run.automaton.WellFormed)
    (nondeterministic : run.automaton.kind = .nondeterministic)
    {edges : List Edge}
    (succeeds : (edges.foldl (visit harmful) run).fault = none) :
    ∀ edge ∈ edges,
      EdgeSettled harmful (edges.foldl (visit harmful) run).automaton edge := by
  induction edges generalizing run with
  | nil => exact fun _ member => absurd member List.not_mem_nil
  | cons first later ih =>
      have running : run.fault = none :=
        running_before (fun stopped => visits_of_stopped stopped _) succeeds
      rw [List.foldl_cons] at succeeds ⊢
      have afterRuns : (visit harmful run first).fault = none :=
        running_before (fun stopped => visits_of_stopped stopped _) succeeds
      have advanced := visit_advances monotone wellFormed first
      have afterFirst := visit_settles monotone wellFormed nondeterministic
        running afterRuns
      have afterKind := advanced.grows.kind_eq.trans nondeterministic
      have rest := visits_advance monotone advanced.wellFormed later
      intro edge member
      rcases List.mem_cons.mp member with rfl | laterMember
      · exact afterFirst.grow monotone rest.grows advanced.wellFormed
          rest.wellFormed afterKind
      · exact ih _ advanced.wellFormed afterKind succeeds edge laterMember

end Final

/-- A run does no harm: what is harmful afterwards was so before, and then
nothing has been added. -/
theorem Advances.unchanged_of_harmful {harmful : Automaton → Bool}
    {before after : Generalization} (advanced : Advances harmful before after)
    (harm : harmful after.automaton = true) :
    after.automaton = before.automaton := by
  apply advanced.unchanged
  cases verdict : harmful before.automaton with
  | true => rfl
  | false =>
      rw [advanced.harmless verdict] at harm
      cases harm

theorem Advances.rejects {workers : Nat} {negative : List Word}
    {before after : Generalization}
    (advanced : Advances
      (fun extended => extended.acceptsAny workers negative) before after)
    {word : Word} (member : word ∈ negative)
    (rejected : before.automaton.accepts word = false) :
    after.automaton.accepts word = false := by
  rw [Bool.eq_false_iff]
  intro accepted
  have same := advanced.unchanged_of_harmful
    (Automaton.acceptsAny_iff.mpr ⟨word, member, accepted⟩)
  rw [same, rejected] at accepted
  cases accepted

end Generalization

namespace Automaton

/-- A generalization keeps the shape, all transitions and the rejection of the
negative words; where a negative word is accepted it changes nothing. -/
theorem generalize_advances {automaton : Automaton}
    (wellFormed : automaton.WellFormed) (workers : Nat)
    (negative : List Word) (edges : List Edge) :
    Generalization.Advances
      (fun extended => extended.acceptsAny workers negative)
      (Generalization.start automaton)
      (automaton.generalize workers negative edges) :=
  Generalization.visits_advance
    (Generalization.monotone_acceptsAny workers negative) wellFormed edges

theorem generalize_succeeds {automaton : Automaton}
    (wellFormed : automaton.WellFormed)
    (nondeterministic : automaton.kind = .nondeterministic) (workers : Nat)
    (negative : List Word) {edges : List Edge}
    (known : ∀ edge ∈ edges,
      (∃ origin, automaton.stateIndex?
        (EdgeGraph.nodeLabel edge.origin) = some origin) ∧
      ∃ destination, automaton.stateIndex?
        (EdgeGraph.nodeLabel edge.destination) = some destination) :
    (automaton.generalize workers negative edges).fault = none :=
  Generalization.visits_running
    (Generalization.monotone_acceptsAny workers negative) rfl wellFormed
    nondeterministic known

/-- No candidate that was passed over could be kept in the end: its ends are
states, and adding it makes the automaton accept a negative word. -/
theorem generalize_maximal {automaton : Automaton}
    (wellFormed : automaton.WellFormed)
    (nondeterministic : automaton.kind = .nondeterministic)
    {workers : Nat} {negative : List Word} {edges : List Edge}
    {run : Generalization}
    (ran : automaton.generalize workers negative edges = run)
    (succeeds : run.fault = none) :
    ∀ edge ∈ edges, ∃ origin destination,
      run.automaton.stateIndex? (EdgeGraph.nodeLabel edge.origin) =
        some origin ∧
      run.automaton.stateIndex? (EdgeGraph.nodeLabel edge.destination) =
        some destination ∧
      ∀ symbol < run.automaton.alphabet.length,
        run.automaton.symbolLabel symbol ∉ edge.labels →
        destination ∉ run.automaton.destinations origin symbol →
        ∃ extended record,
          run.automaton.add origin symbol destination =
            .ok (extended, record) ∧
          ∃ word ∈ negative, extended.accepts word = true := by
  subst ran
  intro edge member
  have settled : Generalization.EdgeSettled
      (fun extended => extended.acceptsAny workers negative)
      (automaton.generalize workers negative edges).automaton edge :=
    Generalization.visits_settle
      (Generalization.monotone_acceptsAny workers negative)
      (Generalization.start automaton) wellFormed nondeterministic succeeds
      edge member
  obtain ⟨origin, destination, originFound, destinationFound, all⟩ := settled
  refine ⟨origin, destination, originFound, destinationFound, ?_⟩
  intro symbol inRange missing absent
  rcases all symbol (Generalization.mem_missingSymbols.mpr
      ⟨inRange, missing⟩) with present | ⟨extended, record, added, harm⟩
  · exact absurd present absent
  · exact ⟨extended, record, added, acceptsAny_iff.mp harm⟩

/-- The automaton of the word `a` over three symbols. -/
def singleEdge : Automaton where
  kind := .nondeterministic
  states := ["0", "1"]
  alphabet := ["a", "b", "c"]
  initial := 0
  finals := [1]
  rows := [[[1], [], []], [[], [], []]]

theorem singleEdge_wellFormed : singleEdge.WellFormed where
  states_ascending := by decide
  alphabet_ascending := by decide
  initial_lt := by decide
  finals_ascending := by decide
  finals_lt := by decide
  row_per_state := by decide
  entry_per_symbol := by decide
  entry_ascending := by decide
  entry_lt := by decide
  entry_le_one := by decide

/-- With the negative word `b` the symbol `c` is kept, and the transition of
`b`, which was rolled back, still does harm afterwards. -/
theorem singleEdge_generalize :
    (singleEdge.generalize 2 [["b"]] [⟨0, 1, ["a"]⟩]).automaton.destinations
        0 2 = [1] ∧
      ∃ extended record,
        (singleEdge.generalize 2 [["b"]] [⟨0, 1, ["a"]⟩]).automaton.add
          0 1 1 = .ok (extended, record) ∧
        ∃ word ∈ [["b"]], extended.accepts word = true := by
  have succeeds : (singleEdge.generalize 2 [["b"]]
      [⟨0, 1, ["a"]⟩]).fault = none := by decide +kernel
  refine ⟨by decide +kernel, ?_⟩
  obtain ⟨origin, destination, originFound, destinationFound, all⟩ :=
    generalize_maximal singleEdge_wellFormed rfl rfl succeeds ⟨0, 1, ["a"]⟩
      (List.mem_singleton.mpr rfl)
  have originIs : some 0 = some origin :=
    Eq.trans (by decide +kernel) originFound
  have destinationIs : some 1 = some destination :=
    Eq.trans (by decide +kernel) destinationFound
  cases originIs
  cases destinationIs
  exact all 1 (by decide +kernel) (by decide +kernel) (by decide +kernel)

end Automaton

end Recognizer
