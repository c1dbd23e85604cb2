import Recognizer.Graph.Basic
import Recognizer.Word

/-!
# Symbols and paths of a graph

What a graph says is which symbols lead from one node to another.  Adding a
symbol adds exactly that, whether it makes a new edge or joins an old one.  A
path spells a word by one symbol of each of its edges.
-/

namespace Recognizer

namespace EdgeGraph

/-- The symbol is on the edge from the origin to the destination. -/
def Carries (graph : EdgeGraph) (origin : Nat) (symbol : String)
    (destination : Nat) : Prop :=
  ∃ edge ∈ graph.edges,
    edge.origin = origin ∧ edge.destination = destination ∧
      symbol ∈ edge.labels

/-- The nodes that are there without being the end of an edge. -/
def IsNode (graph : EdgeGraph) (node : Nat) : Prop :=
  node = start ∨ node = sink ∨ ∃ edge ∈ graph.edges, edge.origin = node

/-- Every symbol leads to a node. -/
def Closed (graph : EdgeGraph) : Prop :=
  ∀ origin symbol destination,
    graph.Carries origin symbol destination → graph.IsNode destination

/-- The word can be read on a way from the first node to the last. -/
inductive Path (graph : EdgeGraph) : Nat → Word → Nat → Prop where
  | stay (node : Nat) : Path graph node [] node
  | follow {origin next last : Nat} {symbol : String} {rest : Word} :
      graph.Carries origin symbol next →
      Path graph next rest last →
      Path graph origin (symbol :: rest) last

theorem path_nil_iff {graph : EdgeGraph} {origin last : Nat} :
    graph.Path origin [] last ↔ origin = last := by
  constructor
  · intro path
    cases path with
    | stay => rfl
  · intro same
    exact same ▸ .stay origin

theorem path_cons_iff {graph : EdgeGraph} {origin last : Nat}
    {symbol : String} {rest : Word} :
    graph.Path origin (symbol :: rest) last ↔
      ∃ next, graph.Carries origin symbol next ∧ graph.Path next rest last := by
  constructor
  · intro path
    cases path with
    | follow carries later => exact ⟨_, carries, later⟩
  · intro path
    obtain ⟨next, carries, later⟩ := path
    exact .follow carries later

theorem not_carries_empty {origin destination : Nat} {symbol : String} :
    ¬ empty.Carries origin symbol destination := by
  intro carries
  obtain ⟨edge, member, _⟩ := carries
  exact absurd member List.not_mem_nil

theorem Carries.isNode {graph : EdgeGraph} {origin destination : Nat}
    {symbol : String} (carries : graph.Carries origin symbol destination) :
    graph.IsNode origin := by
  obtain ⟨edge, member, leaves, _⟩ := carries
  exact Or.inr (Or.inr ⟨edge, member, leaves⟩)

theorem mem_alphabet {graph : EdgeGraph} {symbol : String} :
    symbol ∈ graph.alphabet ↔ ∃ edge ∈ graph.edges, symbol ∈ edge.labels := by
  unfold alphabet
  induction graph.edges with
  | nil => simp
  | cons edge later ih =>
      rw [List.foldr_cons, Ascending.mem_union, ih]
      simp

theorem mem_alphabet_iff_carries {graph : EdgeGraph} {symbol : String} :
    symbol ∈ graph.alphabet ↔
      ∃ origin destination, graph.Carries origin symbol destination := by
  rw [mem_alphabet]
  constructor
  · intro onEdge
    obtain ⟨edge, member, labelled⟩ := onEdge
    exact ⟨edge.origin, edge.destination, edge, member, rfl, rfl, labelled⟩
  · intro carried
    obtain ⟨_, _, edge, member, _, _, labelled⟩ := carried
    exact ⟨edge, member, labelled⟩

theorem Carries.mem_alphabet {graph : EdgeGraph} {origin destination : Nat}
    {symbol : String} (carries : graph.Carries origin symbol destination) :
    symbol ∈ graph.alphabet :=
  mem_alphabet_iff_carries.mpr ⟨origin, destination, carries⟩

/-! ## Adding symbols -/

theorem joins_iff {edge : Edge} {origin destination : Nat} :
    edge.joins origin destination = true ↔
      edge.origin = origin ∧ edge.destination = destination := by
  simp [Edge.joins]

theorem carries_add {graph : EdgeGraph}
    {origin destination otherOrigin otherDestination : Nat}
    {symbol other : String} :
    (graph.add origin destination symbol).Carries otherOrigin other
        otherDestination ↔
      (otherOrigin = origin ∧ other = symbol ∧
          otherDestination = destination) ∨
        graph.Carries otherOrigin other otherDestination := by
  obtain ⟨edges⟩ := graph
  simp only [Carries, add]
  induction edges with
  | nil =>
      simp only [addLabel, List.mem_singleton, exists_eq_left,
        List.not_mem_nil, false_and, exists_false, or_false]
      grind
  | cons edge later ih =>
      unfold addLabel
      split
      · rename_i joins
        obtain ⟨fromOrigin, toDestination⟩ := joins_iff.mp joins
        simp only [List.mem_cons, exists_eq_or_imp, Ascending.mem_insert]
        grind
      · simp only [List.mem_cons, exists_eq_or_imp, ih]
        exact or_left_comm

/-- Every edge carries a symbol. -/
def Labelled (graph : EdgeGraph) : Prop :=
  ∀ edge ∈ graph.edges, edge.labels ≠ []

theorem Labelled.add {graph : EdgeGraph} (labelled : graph.Labelled)
    (origin destination : Nat) (symbol : String) :
    (graph.add origin destination symbol).Labelled := by
  obtain ⟨edges⟩ := graph
  simp only [Labelled, EdgeGraph.add] at labelled ⊢
  induction edges with
  | nil => simp [addLabel]
  | cons edge later ih =>
      obtain ⟨here, others⟩ := List.forall_mem_cons.mp labelled
      unfold addLabel
      split
      · refine List.forall_mem_cons.mpr ⟨?_, others⟩
        exact List.ne_nil_of_mem (Ascending.mem_insert.mpr (Or.inl rfl))
      · exact List.forall_mem_cons.mpr ⟨here, ih others⟩

theorem Labelled.carries {graph : EdgeGraph} (labelled : graph.Labelled)
    {edge : Edge} (member : edge ∈ graph.edges) :
    ∃ symbol, graph.Carries edge.origin symbol edge.destination := by
  obtain ⟨symbol, onEdge⟩ := List.exists_mem_of_ne_nil _ (labelled edge member)
  exact ⟨symbol, edge, member, rfl, rfl, onEdge⟩

end EdgeGraph

end Recognizer
