import Recognizer.Proofs.Graph.Exact
import Recognizer.Proofs.Graph.Extraction

/-!
# The exact automaton accepts the words of the trie

The paths from an inner trie node to the sink spell what is missing to the words
below that node.  From the root these are the words themselves, and the
automaton of the graph accepts exactly the words on its paths.
-/

namespace Recognizer

namespace Trie

namespace Numbered

variable {trie : Trie} {words : List Word} {number : Word → Nat}
  {graph : EdgeGraph}

theorem exists_leadsTo (number : Word → Nat) (holds : trie.Holds words)
    {node : TrieNode} (member : node ∈ trie.nodes) (notRoot : node.path ≠ root) :
    ∃ destination, trie.LeadsTo number node destination := by
  cases inner : trie.hasChildren node.path with
  | true => exact ⟨number node.path, Or.inr ⟨inner, rfl⟩⟩
  | false =>
      have present : node.path ∈ trie.paths :=
        mem_paths_iff.mpr ⟨node, member, rfl⟩
      have ends := (holds.isWordEnd_iff node member).mpr
        ⟨notRoot, holds.mem_words_of_leaf present notRoot inner⟩
      exact ⟨EdgeGraph.sink, Or.inl ⟨ends, rfl⟩⟩

theorem closed (numbered : trie.Numbered number graph)
    (holds : trie.Holds words) : graph.Closed := by
  intro origin symbol destination carries
  obtain ⟨parent, node, _, _, _, leads⟩ :=
    (numbered.carries_iff origin symbol destination).mp carries
  rcases leads with ⟨_, rfl⟩ | ⟨inner, rfl⟩
  · exact Or.inr (Or.inl rfl)
  · obtain ⟨next, present⟩ := hasChildren_iff.mp inner
    obtain ⟨child, childMember, extended⟩ := mem_paths_iff.mp present
    have notRoot : child.path ≠ root := by
      rw [extended]
      simp [root]
    obtain ⟨target, leads⟩ := exists_leadsTo number holds childMember notRoot
    have onward : graph.Carries (number node.path) next target :=
      (numbered.carries_iff _ _ _).mpr
        ⟨node.path, child, childMember, extended, rfl, leads⟩
    exact onward.isNode

theorem not_carries_sink (numbered : trie.Numbered number graph)
    {symbol : String} {destination : Nat} :
    ¬ graph.Carries EdgeGraph.sink symbol destination := by
  intro carries
  obtain ⟨parent, node, member, extended, isSink, _⟩ :=
    (numbered.carries_iff _ _ _).mp carries
  have inner : trie.Inner parent :=
    Or.inr (hasChildren_of_mem member extended)
  exact numbered.number_ne_sink parent inner isSink.symm

/-- The paths from an inner node to the sink spell what is missing to the words
below it. -/
theorem path_iff (numbered : trie.Numbered number graph)
    (holds : trie.Holds words) {word path : Word} (inner : trie.Inner path) :
    graph.Path (number path) word EdgeGraph.sink ↔
      word ≠ [] ∧ path ++ word ∈ words := by
  induction word generalizing path with
  | nil =>
      rw [EdgeGraph.path_nil_iff]
      constructor
      · intro isSink
        exact absurd isSink (numbered.number_ne_sink path inner)
      · intro nonempty
        exact absurd rfl nonempty.1
  | cons symbol rest ih =>
      rw [EdgeGraph.path_cons_iff, and_iff_right (List.cons_ne_nil _ _)]
      constructor
      · intro onward
        obtain ⟨next, carries, later⟩ := onward
        obtain ⟨parent, node, member, extended, same, leads⟩ :=
          (numbered.carries_iff _ _ _).mp carries
        have parentInner : trie.Inner parent :=
          Or.inr (hasChildren_of_mem member extended)
        cases numbered.number_inj path parent inner parentInner same
        rw [List.append_cons, ← extended]
        -- The sink has no way on, so an edge into it ends the word.
        rcases leads with ⟨ends, rfl⟩ | ⟨below, rfl⟩
        · cases rest with
          | nil =>
              rw [List.append_nil]
              exact ((holds.isWordEnd_iff node member).mp ends).2
          | cons second others =>
              obtain ⟨_, impossible, _⟩ := EdgeGraph.path_cons_iff.mp later
              exact absurd impossible numbered.not_carries_sink
        · exact ((ih (Or.inr below)).mp later).2
      · intro held
        obtain ⟨node, member, extended⟩ :=
          mem_paths_iff.mp (holds.child_mem_paths held)
        have shown : ∀ next, trie.LeadsTo number node next →
            graph.Carries (number path) symbol next :=
          fun next leads => (numbered.carries_iff _ _ _).mpr
            ⟨path, node, member, extended, rfl, leads⟩
        rw [List.append_cons, ← extended] at held
        cases rest with
        | nil =>
            rw [List.append_nil] at held
            have ends := (holds.isWordEnd_iff node member).mpr
              ⟨by rw [extended]; simp [root], held⟩
            exact ⟨EdgeGraph.sink, shown _ (Or.inl ⟨ends, rfl⟩), .stay _⟩
        | cons second others =>
            have below := hasChildren_iff.mpr
              ⟨second, holds.child_mem_paths held⟩
            exact ⟨number node.path, shown _ (Or.inr ⟨below, rfl⟩),
              (ih (Or.inr below)).mpr ⟨List.cons_ne_nil _ _, held⟩⟩

end Numbered

theorem edgeGraph_closed (words : List Word) :
    (ofWords words).edgeGraph.Closed := by
  obtain ⟨number, numbered⟩ := (holds_ofWords words).edgeGraph_numbered
  exact numbered.closed (holds_ofWords words)

theorem path_edgeGraph_iff (words : List Word) {word : Word} :
    (ofWords words).edgeGraph.Path EdgeGraph.start word EdgeGraph.sink ↔
      word ≠ [] ∧ word ∈ words := by
  obtain ⟨number, numbered⟩ := (holds_ofWords words).edgeGraph_numbered
  rw [← numbered.number_root]
  exact numbered.path_iff (holds_ofWords words) (Or.inl rfl)

theorem mem_alphabet_edgeGraph (words : List Word) {symbol : String} :
    symbol ∈ (ofWords words).edgeGraph.alphabet ↔
      ∃ word ∈ words, symbol ∈ word := by
  have holds := holds_ofWords words
  obtain ⟨number, numbered⟩ := holds.edgeGraph_numbered
  rw [EdgeGraph.mem_alphabet_iff_carries]
  constructor
  · intro carried
    obtain ⟨origin, destination, carries⟩ := carried
    obtain ⟨parent, node, member, extended, _⟩ :=
      (numbered.carries_iff _ _ _).mp carries
    have present : node.path ∈ (ofWords words).paths :=
      mem_paths_iff.mpr ⟨node, member, rfl⟩
    rw [extended] at present
    rcases (holds.mem_paths _).mp present with isRoot | ⟨word, held, head⟩
    · exact absurd isRoot (by simp [root])
    · obtain ⟨_, rest, rfl⟩ := Word.mem_heads.mp head
      exact ⟨_, held, by simp⟩
  · intro spelled
    obtain ⟨word, held, occurs⟩ := spelled
    obtain ⟨before, after, rfl⟩ := List.append_of_mem occurs
    obtain ⟨node, member, extended⟩ :=
      mem_paths_iff.mp (holds.child_mem_paths held)
    have notRoot : node.path ≠ root := by
      rw [extended]
      simp [root]
    obtain ⟨destination, leads⟩ :=
      Numbered.exists_leadsTo number holds member notRoot
    exact ⟨number before, destination, (numbered.carries_iff _ _ _).mpr
      ⟨before, node, member, extended, rfl, leads⟩⟩

/-- For every list of words the exact automaton is built, and it accepts the
non-empty words of the list and nothing else. -/
theorem exactAutomaton_accepts (words : List Word) :
    ∃ automaton,
      (ofWords words).edgeGraph.exactAutomaton = .ok automaton ∧
      ∀ word : Word, automaton.accepts word = true ↔
        word ≠ [] ∧ word ∈ words := by
  have closed := edgeGraph_closed words
  obtain ⟨automaton, built, realizes⟩ :=
    EdgeGraph.exactAutomaton_realizes closed
  refine ⟨automaton, built, ?_⟩
  intro word
  rw [realizes.accepts_iff_path closed]
  exact path_edgeGraph_iff words

end Trie

end Recognizer
