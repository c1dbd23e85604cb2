import Recognizer.Automaton.Acceptance
import Recognizer.Proofs.Automaton.Shape

/-!
# Runs and acceptance

A run follows one state at a time.  Acceptance follows all runs at once and
stops early, which changes no verdict: a word is accepted exactly when some run
on it ends in a final state.  Since runs only ever use transitions that are
there, an automaton with more transitions accepts more words.
-/

namespace Recognizer

namespace Automaton

/-- The automaton can read the word on a way from the first state to the
last. -/
inductive Run (automaton : Automaton) : Nat → Word → Nat → Prop where
  | stay (state : Nat) : Run automaton state [] state
  | read {state symbol next last : Nat} {label : String} {rest : Word} :
      automaton.symbolIndex? label = some symbol →
      next ∈ automaton.destinations state symbol →
      Run automaton next rest last →
      Run automaton state (label :: rest) last

theorem acceptsFrom_nil (automaton : Automaton) (word : Word) :
    automaton.acceptsFrom [] word = false := by
  cases word with
  | nil => rfl
  | cons label rest =>
      simp only [acceptsFrom]
      split
      · rfl
      · simp [step]

/-- Stopping as soon as no state is active does not change the verdict. -/
theorem acceptsFrom_cons (automaton : Automaton) (active : List Nat)
    (label : String) (rest : Word) :
    automaton.acceptsFrom active (label :: rest) =
      match automaton.symbolIndex? label with
      | none => false
      | some symbol =>
          automaton.acceptsFrom (automaton.step active symbol) rest := by
  rw [acceptsFrom]
  cases automaton.symbolIndex? label with
  | none => rfl
  | some symbol =>
      by_cases stuck : (automaton.step active symbol).isEmpty = true
      · simp only [if_pos stuck]
        rw [List.isEmpty_iff.mp stuck, acceptsFrom_nil]
      · simp only [if_neg stuck]

theorem acceptsFrom_iff {automaton : Automaton} {active : List Nat}
    {word : Word} :
    automaton.acceptsFrom active word = true ↔
      ∃ state ∈ active, ∃ last,
        automaton.Run state word last ∧ automaton.isFinal last = true := by
  induction word generalizing active with
  | nil =>
      constructor
      · intro accepted
        obtain ⟨state, member, final⟩ := List.any_eq_true.mp accepted
        exact ⟨state, member, state, .stay state, final⟩
      · intro runs
        obtain ⟨state, member, last, run, final⟩ := runs
        cases run with
        | stay => exact List.any_eq_true.mpr ⟨state, member, final⟩
  | cons label rest ih =>
      rw [acceptsFrom_cons]
      constructor
      · intro accepted
        cases known : automaton.symbolIndex? label with
        | none => simp [known] at accepted
        | some symbol =>
            simp only [known] at accepted
            obtain ⟨next, reached, last, run, final⟩ := ih.mp accepted
            obtain ⟨state, member, leads⟩ := mem_step.mp reached
            exact ⟨state, member, last, .read known leads run, final⟩
      · intro runs
        obtain ⟨state, member, last, run, final⟩ := runs
        cases run with
        | read known leads run =>
            simp only [known]
            exact ih.mpr ⟨_, mem_step.mpr ⟨state, member, leads⟩, last, run,
              final⟩

/-- A word is accepted when some run on it, from the initial state, ends in a
final state. -/
theorem accepts_iff_run {automaton : Automaton} {word : Word} :
    automaton.accepts word = true ↔
      ∃ last, automaton.Run automaton.initial word last ∧
        automaton.isFinal last = true := by
  simp [accepts, acceptsFrom_iff]

theorem step_singleton {automaton : Automaton}
    (wellFormed : automaton.WellFormed) (state symbol : Nat) :
    automaton.step [state] symbol = automaton.destinations state symbol :=
  Ascending.ofList_eq_self (wellFormed.destinations_ascending state symbol)

theorem step_lt {automaton : Automaton} (wellFormed : automaton.WellFormed)
    {active : List Nat} {symbol destination : Nat}
    (reached : destination ∈ automaton.step active symbol) :
    destination < automaton.states.length := by
  obtain ⟨state, _, leads⟩ := mem_step.mp reached
  exact wellFormed.destination_lt leads

/-! ## More transitions -/

/-- The second automaton is the first one with possibly more transitions. -/
structure Extends (base extended : Automaton) : Prop where
  kind_eq : extended.kind = base.kind
  states_eq : extended.states = base.states
  alphabet_eq : extended.alphabet = base.alphabet
  initial_eq : extended.initial = base.initial
  finals_eq : extended.finals = base.finals
  keeps : ∀ {state symbol destination : Nat},
    destination ∈ base.destinations state symbol →
      destination ∈ extended.destinations state symbol

namespace Extends

theorem refl (automaton : Automaton) : Extends automaton automaton where
  kind_eq := rfl
  states_eq := rfl
  alphabet_eq := rfl
  initial_eq := rfl
  finals_eq := rfl
  keeps := fun leads => leads

theorem trans {first second third : Automaton}
    (earlier : Extends first second) (later : Extends second third) :
    Extends first third where
  kind_eq := later.kind_eq.trans earlier.kind_eq
  states_eq := later.states_eq.trans earlier.states_eq
  alphabet_eq := later.alphabet_eq.trans earlier.alphabet_eq
  initial_eq := later.initial_eq.trans earlier.initial_eq
  finals_eq := later.finals_eq.trans earlier.finals_eq
  keeps := fun leads => later.keeps (earlier.keeps leads)

variable {base extended : Automaton}

theorem stateIndex? (grows : Extends base extended) (label : String) :
    extended.stateIndex? label = base.stateIndex? label := by
  simp only [Automaton.stateIndex?, grows.states_eq]

theorem symbolIndex? (grows : Extends base extended) (label : String) :
    extended.symbolIndex? label = base.symbolIndex? label := by
  simp only [Automaton.symbolIndex?, grows.alphabet_eq]

theorem isFinal (grows : Extends base extended) (state : Nat) :
    extended.isFinal state = base.isFinal state := by
  simp only [Automaton.isFinal, grows.finals_eq]

theorem run (grows : Extends base extended) {first last : Nat} {word : Word}
    (old : base.Run first word last) : extended.Run first word last := by
  induction old with
  | stay state => exact .stay state
  | read known leads _ ih =>
      exact .read ((grows.symbolIndex? _).trans known) (grows.keeps leads) ih

theorem accepts (grows : Extends base extended) {word : Word}
    (accepted : base.accepts word = true) : extended.accepts word = true := by
  obtain ⟨last, old, final⟩ := accepts_iff_run.mp accepted
  apply accepts_iff_run.mpr
  refine ⟨last, ?_, ?_⟩
  · rw [grows.initial_eq]
    exact grows.run old
  · rw [grows.isFinal]
    exact final

end Extends

theorem extends_setDestinations (automaton : Automaton)
    {state symbol : Nat} {destinations : List Nat}
    (more : ∀ destination ∈ automaton.destinations state symbol,
      destination ∈ destinations)
    (present : (automaton.setDestinations state symbol destinations).destinations
      state symbol = destinations) :
    Extends automaton
      (automaton.setDestinations state symbol destinations) where
  kind_eq := rfl
  states_eq := rfl
  alphabet_eq := rfl
  initial_eq := rfl
  finals_eq := rfl
  keeps := by
    intro otherState otherSymbol destination leads
    by_cases same : state = otherState ∧ symbol = otherSymbol
    · obtain ⟨rfl, rfl⟩ := same
      rw [present]
      exact more destination leads
    · rw [destinations_setDestinations_of_ne _ _ (by
        by_cases sameState : state = otherState
        · exact Or.inr fun sameSymbol => same ⟨sameState, sameSymbol⟩
        · exact Or.inl sameState)]
      exact leads

end Automaton

end Recognizer
