import Recognizer.Proofs.Determinization.Language
import Recognizer.Proofs.Learning.Training
import Recognizer.Snapshot.Document

/-!
# The automata that can come about

An automaton is built from declarations, read from a document or trained, and
afterwards transitions are added to it and taken back, in any order.  All of
this keeps the shape, because the records of past additions keep fitting.  What
holds of every well formed automaton therefore holds of every automaton that a
program can ever have, in particular that its determinization is built and
accepts the same words.
-/

namespace Recognizer

/-- The automata that a program can have, with the records of the additions
made so far.  A record may be undone at any later time, also repeatedly. -/
inductive Produced : Automaton → List Undo → Prop where
  | built {declarations : List Declaration} {kind : Kind}
      {automaton : Automaton} :
      (Draft.ofDeclarations declarations).build kind = .ok automaton →
      Produced automaton []
  | read {source : ByteSource} {automaton : Automaton} :
      Automaton.read source = .ok automaton →
      Produced automaton []
  | trained {workers : Nat} {positive negative : List Word}
      {training : Training} :
      Training.ofWords workers positive negative = .ok training →
      Produced training.automaton []
  | determinized {automaton : Automaton} {records : List Undo}
      {style : KeyStyle} {determinization : Determinization} :
      Produced automaton records →
      automaton.determinize style = .ok determinization →
      Produced determinization.automaton []
  | generalized {automaton : Automaton} {records : List Undo}
      (workers : Nat) (negative : List Word) (edges : List Edge) :
      Produced automaton records →
      Produced (automaton.generalize workers negative edges).automaton records
  | added {automaton extended : Automaton} {records : List Undo}
      {record : Undo} {state symbol destination : Nat} :
      Produced automaton records →
      state < automaton.states.length →
      symbol < automaton.alphabet.length →
      destination < automaton.states.length →
      automaton.add state symbol destination = .ok (extended, record) →
      Produced extended (record :: records)
  | undone {automaton : Automaton} {records : List Undo} {record : Undo} :
      Produced automaton records →
      record ∈ records →
      Produced (automaton.undo record) records

namespace Automaton

theorem read_wellFormed {source : ByteSource} {automaton : Automaton}
    (found : Automaton.read source = .ok automaton) :
    automaton.WellFormed := by
  unfold Automaton.read at found
  split at found
  · cases found
  · split at found
    · cases found
    · rename_i snapshot _
      cases restored : snapshot.restore with
      | error fault =>
          rw [restored] at found
          cases found
      | ok described =>
          rw [restored] at found
          cases found
          exact Draft.build_wellFormed restored

theorem determinize_wellFormed {automaton : Automaton}
    (wellFormed : automaton.WellFormed) {style : KeyStyle}
    {determinization : Determinization}
    (determinized : automaton.determinize style = .ok determinization) :
    determinization.automaton.WellFormed := by
  obtain ⟨deterministic, succeeds, stands⟩ :=
    determinize_standsFor wellFormed style
  rw [succeeds] at determinized
  cases determinized
  exact stands.wellFormed

end Automaton

namespace Produced

/-- The invariant of all these steps: the automaton has its shape, and every
record still fits.  Fitting depends on the states and the kind only, which no
later step changes. -/
theorem wellFormed_and_fits {automaton : Automaton} {records : List Undo}
    (produced : Produced automaton records) :
    automaton.WellFormed ∧ ∀ record ∈ records, record.Fits automaton := by
  induction produced with
  | built succeeds =>
      exact ⟨Draft.build_wellFormed succeeds,
        fun _ member => absurd member List.not_mem_nil⟩
  | read succeeds =>
      exact ⟨Automaton.read_wellFormed succeeds,
        fun _ member => absurd member List.not_mem_nil⟩
  | trained succeeds =>
      exact ⟨Training.ofWords_wellFormed succeeds,
        fun _ member => absurd member List.not_mem_nil⟩
  | determinized _ succeeds ih =>
      exact ⟨Automaton.determinize_wellFormed ih.1 succeeds,
        fun _ member => absurd member List.not_mem_nil⟩
  | generalized workers negative edges _ ih =>
      obtain ⟨wellFormed, fits⟩ := ih
      have advanced :=
        Automaton.generalize_advances wellFormed workers negative edges
      refine ⟨advanced.wellFormed, ?_⟩
      intro record member
      exact (fits record member).congr advanced.grows.states_eq
        advanced.grows.kind_eq
  | added _ _ _ destinationInRange succeeds ih =>
      obtain ⟨wellFormed, fits⟩ := ih
      have sameStates := Automaton.add_states succeeds
      have sameKind := Automaton.add_kind succeeds
      refine ⟨wellFormed.add destinationInRange succeeds, ?_⟩
      intro record member
      rcases List.mem_cons.mp member with rfl | earlier
      · exact (wellFormed.fits_add succeeds).congr sameStates sameKind
      · exact (fits record earlier).congr sameStates sameKind
  | undone _ member ih =>
      obtain ⟨wellFormed, fits⟩ := ih
      refine ⟨wellFormed.undo (fits _ member), ?_⟩
      intro record other
      exact (fits record other).congr rfl rfl

theorem wellFormed {automaton : Automaton} {records : List Undo}
    (produced : Produced automaton records) : automaton.WellFormed :=
  produced.wellFormed_and_fits.1

/-- The determinization of every automaton that can come about is built, and
it accepts the same words. -/
theorem determinize_accepts {automaton : Automaton} {records : List Undo}
    (produced : Produced automaton records) :
    ∃ determinization,
      automaton.determinize .separated = .ok determinization ∧
      determinization.automaton.kind = .deterministic ∧
      ∀ word : Word,
        determinization.automaton.accepts word = automaton.accepts word := by
  have wellFormed := produced.wellFormed
  obtain ⟨deterministic, succeeds, stands⟩ :=
    Automaton.determinize_standsFor wellFormed .separated
  exact ⟨_, succeeds, stands.kind_eq, stands.accepts wellFormed⟩

/-- Two states, where the word `a` leads from the first to both. -/
def branching : Automaton where
  kind := .nondeterministic
  states := ["0", "1"]
  alphabet := ["a", "b"]
  initial := 0
  finals := [1]
  rows := [[[0, 1], []], [[], []]]

theorem branching_produced :
    Produced branching [⟨0, 0, [1]⟩] := by
  let chain : Automaton := { branching with rows := [[[1], []], [[], []]] }
  have built : (Draft.ofDeclarations
      [.states ["0", "1"], .alphabet ["a", "b"], .initial "0",
        .finals ["1"], .destination "0" "a" "1"]).build .nondeterministic =
      .ok chain := by decide +kernel
  have added : chain.add 0 0 0 = .ok (branching, ⟨0, 0, [1]⟩) := rfl
  exact .added (.built built) (by decide) (by decide) (by decide) added

theorem branching_determinize :
    ∃ determinization,
      branching.determinize .separated = .ok determinization ∧
      determinization.automaton.accepts ["a", "a"] = true ∧
      determinization.automaton.accepts ["a", "b"] = false ∧
      determinization.automaton.accepts ["a", "c"] = false := by
  obtain ⟨determinization, succeeds, _, same⟩ :=
    determinize_accepts branching_produced
  refine ⟨determinization, succeeds, ?_, ?_, ?_⟩
  · rw [same]
    decide +kernel
  · rw [same]
    decide +kernel
  · rw [same]
    decide +kernel

end Produced

end Recognizer
