import Recognizer.Learning.Training
import Recognizer.Proofs.Graph.Language
import Recognizer.Proofs.Graph.Ranking
import Recognizer.Proofs.Learning.Generalization

/-!
# Training

The exact automaton of the positive words is built, all ends of edges are its
states, and so the generalization meets no fault.  If the exact automaton
rejects all negative words, every later one does.  If it accepts one of them,
which is then positive too, every candidate does harm and the automaton stays
exact.
-/

namespace Recognizer

namespace EdgeGraph

theorem Realizes.ranked_known {automaton : Automaton} {graph : EdgeGraph}
    (realizes : Realizes automaton graph) (closed : graph.Closed)
    (labelled : graph.Labelled) :
    ∀ edge ∈ graph.ranked.map RankedEdge.edge,
      (∃ origin, automaton.stateIndex? (nodeLabel edge.origin) =
        some origin) ∧
      ∃ destination, automaton.stateIndex? (nodeLabel edge.destination) =
        some destination := by
  intro edge member
  obtain ⟨ranked, rankedMember, rfl⟩ := List.mem_map.mp member
  obtain ⟨symbol, carries⟩ :=
    labelled.carries (edge_of_mem_ranked rankedMember)
  exact ⟨realizes.exists_stateIndex? carries.isNode,
    realizes.exists_stateIndex? (closed _ _ _ carries)⟩

end EdgeGraph

namespace Training

theorem ofWords_eq_ok_iff {workers : Nat} {positive negative : List Word}
    {training : Training} :
    Training.ofWords workers positive negative = .ok training ↔
      ∃ (initial : Automaton) (run : Generalization),
        (Trie.ofWords positive).edgeGraph.exactAutomaton = .ok initial ∧
        initial.generalize workers negative
          ((Trie.ofWords positive).edgeGraph.ranked.map
            RankedEdge.edge) = run ∧
        run.fault = none ∧ training = ⟨run.automaton, run.tally⟩ := by
  simp only [Training.ofWords]
  cases built : (Trie.ofWords positive).edgeGraph.exactAutomaton with
  | error fault => simp
  | ok initial =>
      cases ended : (initial.generalize workers negative
          ((Trie.ofWords positive).edgeGraph.ranked.map
            RankedEdge.edge)).fault with
      | some fault => simp [ended]
      | none => simp [ended, eq_comm]

theorem ofWords_wellFormed {workers : Nat} {positive negative : List Word}
    {training : Training}
    (trained : Training.ofWords workers positive negative = .ok training) :
    training.automaton.WellFormed := by
  obtain ⟨initial, _, built, rfl, _, rfl⟩ := ofWords_eq_ok_iff.mp trained
  exact (initial.generalize_advances (Draft.build_wellFormed built) workers
    negative _).wellFormed

/-- Training always succeeds: the exact automaton is built, and its
generalization along the ranked edges meets no fault. -/
theorem ofWords_run (workers : Nat) (positive negative : List Word) :
    ∃ (initial : Automaton) (run : Generalization),
      (Trie.ofWords positive).edgeGraph.exactAutomaton = .ok initial ∧
      EdgeGraph.Realizes initial (Trie.ofWords positive).edgeGraph ∧
      initial.generalize workers negative
        ((Trie.ofWords positive).edgeGraph.ranked.map
          RankedEdge.edge) = run ∧
      run.fault = none ∧
      Training.ofWords workers positive negative =
        .ok ⟨run.automaton, run.tally⟩ := by
  have closed := Trie.edgeGraph_closed positive
  obtain ⟨initial, built, realizes⟩ :=
    EdgeGraph.exactAutomaton_realizes closed
  have succeeds := initial.generalize_succeeds realizes.wellFormed
    realizes.kind_eq workers negative
    (realizes.ranked_known closed (Trie.edgeGraph_labelled _))
  exact ⟨initial, _, built, realizes, rfl, succeeds,
    ofWords_eq_ok_iff.mpr ⟨initial, _, built, rfl, succeeds, rfl⟩⟩

/-- Training ends with what a run makes of the automaton that accepts the
non-empty positive words and nothing else. -/
theorem ofWords_advances (workers : Nat) (positive negative : List Word) :
    ∃ (initial : Automaton) (training : Training),
      (∀ word : Word, initial.accepts word = true ↔
        word ≠ [] ∧ word ∈ positive) ∧
      Training.ofWords workers positive negative = .ok training ∧
      Generalization.Advances
        (fun extended => extended.acceptsAny workers negative)
        (Generalization.start initial)
        ⟨training.automaton, training.tally, none⟩ := by
  obtain ⟨initial, run, _, realizes, ran, succeeds, trained⟩ :=
    ofWords_run workers positive negative
  have advanced := initial.generalize_advances realizes.wellFormed workers
    negative ((Trie.ofWords positive).edgeGraph.ranked.map RankedEdge.edge)
  rw [ran] at advanced
  refine ⟨initial, _, ?_, trained, ?_⟩
  · intro word
    rw [realizes.accepts_iff_path (Trie.edgeGraph_closed positive)]
    exact Trie.path_edgeGraph_iff positive
  · rw [← succeeds]
    exact advanced

/-- Training always succeeds.  The learned automaton accepts every non-empty
positive word, and it rejects every negative word that is not positive as
well. -/
theorem ofWords_correct (workers : Nat) (positive negative : List Word) :
    ∃ training,
      Training.ofWords workers positive negative = .ok training ∧
      (∀ word ∈ positive, word ≠ [] →
        training.automaton.accepts word = true) ∧
      ∀ word ∈ negative, word ∉ positive →
        training.automaton.accepts word = false := by
  obtain ⟨initial, training, language, trained, advanced⟩ :=
    ofWords_advances workers positive negative
  refine ⟨training, trained, ?_, ?_⟩
  · intro word member nonempty
    exact advanced.grows.accepts ((language word).mpr ⟨nonempty, member⟩)
  · intro word member notPositive
    apply advanced.rejects member
    rw [Bool.eq_false_iff]
    exact fun accepted => notPositive ((language word).mp accepted).2

end Training

end Recognizer
