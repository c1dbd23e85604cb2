import Recognizer.Proofs.Graph.Acyclic
import Recognizer.Proofs.Graph.Language

/-!
# Potencies in the graph of a trie

Edges lead down the trie, away from the node they leave, until they reach the
sink.  So the graph has no cycle and ways that parted stay apart, and as a word
ends below every node, no potency is zero.
-/

namespace Recognizer

namespace EdgeGraph

open Relation

variable {graph : EdgeGraph} {origin last : Nat}

theorem Labelled.joined_iff (labelled : graph.Labelled) :
    graph.Joined origin last ↔
      ∃ symbol, graph.Carries origin symbol last := by
  constructor
  · rintro ⟨edge, member, rfl, rfl⟩
    exact labelled.carries member
  · rintro ⟨symbol, edge, member, leaves, enters, _⟩
    exact ⟨edge, member, leaves, enters⟩

theorem Path.leads {word : Word} (path : graph.Path origin word last) :
    ReflTransGen graph.Joined origin last := by
  induction path with
  | stay => exact .refl
  | follow carries _ ih =>
      obtain ⟨edge, member, leaves, enters, _⟩ := carries
      exact .head ⟨edge, member, leaves, enters⟩ ih

end EdgeGraph

namespace Trie

open EdgeGraph Relation

namespace Numbered

variable {trie : Trie} {words : List Word} {number : Word → Nat}
  {graph : EdgeGraph}

theorem joined (numbered : trie.Numbered number graph)
    (labelled : graph.Labelled) {origin destination : Nat}
    (isJoined : graph.Joined origin destination) :
    ∃ parent symbol, trie.Inner parent ∧ origin = number parent ∧
      (destination = sink ∨ trie.hasChildren (parent ++ [symbol]) = true ∧
        destination = number (parent ++ [symbol])) := by
  obtain ⟨symbol, carries⟩ := labelled.joined_iff.mp isJoined
  obtain ⟨parent, node, member, extended, isOrigin, leads⟩ :=
    (numbered.carries_iff _ _ _).mp carries
  refine ⟨parent, symbol, Or.inr (hasChildren_of_mem member extended),
    isOrigin, ?_⟩
  rw [LeadsTo, extended] at leads
  exact leads.imp_left And.right

theorem branching (numbered : trie.Numbered number graph)
    (labelled : graph.Labelled) : graph.Branching where
  entered_once := by
    intro first second node notSink firstJoined secondJoined
    obtain ⟨parent, symbol, _, rfl, isSink | ⟨inner, isNumber⟩⟩ :=
      numbered.joined labelled firstJoined
    · exact absurd isSink notSink
    · obtain ⟨other, otherSymbol, _, rfl, isSink | ⟨otherInner, isOther⟩⟩ :=
        numbered.joined labelled secondJoined
      · exact absurd isSink notSink
      · have same := numbered.number_inj _ _ (Or.inr inner)
          (Or.inr otherInner) (isNumber.symm.trans isOther)
        rw [(List.append_singleton_inj.mp same).1]
  sink_ends := by
    intro node isJoined
    obtain ⟨_, carries⟩ := labelled.joined_iff.mp isJoined
    exact numbered.not_carries_sink carries

theorem leads_down (numbered : trie.Numbered number graph)
    (labelled : graph.Labelled) {path : Word} (inner : trie.Inner path)
    {node : Nat} (leads : TransGen graph.Joined (number path) node) :
    node = sink ∨ ∃ below, trie.Inner below ∧ node = number below ∧
      path.length < below.length := by
  have down : ∀ {above : Word} {next : Nat}, trie.Inner above →
      path.length ≤ above.length → graph.Joined (number above) next →
        next = sink ∨ ∃ below, trie.Inner below ∧ next = number below ∧
          path.length < below.length := by
    intro above next aboveInner atLeast isJoined
    obtain ⟨parent, symbol, parentInner, same, isSink | ⟨below, isNumber⟩⟩ :=
      numbered.joined labelled isJoined
    · exact Or.inl isSink
    · cases numbered.number_inj _ _ aboveInner parentInner same
      refine Or.inr ⟨above ++ [symbol], Or.inr below, isNumber, ?_⟩
      rw [List.length_append]
      exact Nat.lt_succ_of_le atLeast
  induction leads with
  | single isJoined => exact down inner (Nat.le_refl _) isJoined
  | tail _ isJoined ih =>
      rcases ih with rfl | ⟨above, aboveInner, rfl, longer⟩
      · exact absurd isJoined ((numbered.branching labelled).sink_ends _)
      · exact down aboveInner (Nat.le_of_lt longer) isJoined

theorem acyclic (numbered : trie.Numbered number graph)
    (labelled : graph.Labelled) : graph.Acyclic := by
  intro node cycle
  obtain ⟨next, isJoined, _⟩ := TransGen.head'_iff.mp cycle
  obtain ⟨path, _, inner, rfl, _⟩ := numbered.joined labelled isJoined
  rcases numbered.leads_down labelled inner cycle with
    isSink | ⟨below, belowInner, same, longer⟩
  · exact numbered.number_ne_sink path inner isSink
  · rw [numbered.number_inj _ _ inner belowInner same] at longer
    exact Nat.lt_irrefl _ longer

theorem leads_to_sink (numbered : trie.Numbered number graph)
    (holds : trie.Holds words) {path : Word}
    (inner : trie.hasChildren path = true) :
    ReflTransGen graph.Joined (number path) sink := by
  obtain ⟨symbol, present⟩ := hasChildren_iff.mp inner
  rcases (holds.mem_paths _).mp present with isRoot | ⟨word, held, head⟩
  · exact absurd isRoot (by simp [root])
  · obtain ⟨_, rest, rfl⟩ := Word.mem_heads.mp head
    rw [List.append_assoc] at held
    exact ((numbered.path_iff holds (Or.inr inner)).mpr
      ⟨by simp, held⟩).leads

end Numbered

theorem edgeGraph_acyclic (words : List Word) :
    (ofWords words).edgeGraph.Acyclic := by
  obtain ⟨number, numbered⟩ := (holds_ofWords words).edgeGraph_numbered
  exact numbered.acyclic (edgeGraph_labelled _)

/-- The paths from the destination of an edge end in different edges into the
sink, and there are some. -/
theorem encard_endings_edgeGraph (words : List Word) {edge : Edge}
    (member : edge ∈ (ofWords words).edgeGraph.edges)
    (notSink : edge.destination ≠ sink) :
    ((ofWords words).edgeGraph.endings edge.destination).encard =
        (ofWords words).edgeGraph.potencyOf edge.destination ∧
      1 ≤ (ofWords words).edgeGraph.potencyOf edge.destination := by
  have holds := holds_ofWords words
  obtain ⟨number, numbered⟩ := holds.edgeGraph_numbered
  have labelled := (ofWords words).edgeGraph_labelled
  have distinct := (ofWords words).edgeGraph_built.endsDistinct
  have acyclic := numbered.acyclic labelled
  have inRange := (lt_nodeCount member).2
  have below :
      ReflTransGen (ofWords words).edgeGraph.Joined edge.destination sink := by
    obtain ⟨_, _, _, _, isSink | ⟨inner, isNumber⟩⟩ :=
      numbered.joined labelled ⟨edge, member, rfl, rfl⟩
    · exact absurd isSink notSink
    · rw [isNumber]
      exact numbered.leads_to_sink holds inner
  constructor
  · rw [(numbered.branching labelled).encard_endings acyclic distinct notSink]
    exact distinct.encard_eq_potencyOf inRange
  · exact acyclic.potencyOf_pos distinct inRange below

end Trie

namespace EdgeGraph

/-- Every edge of the graph is ranked once, with its potency, and it has no other
one when the graph is stored. -/
structure RanksBy (graph : EdgeGraph) (potency : Edge → Nat) : Prop where
  ranked : ∃ ranked, graph.rank? = some ranked ∧
    (ranked.map fun placed => (placed.edge, placed.potency)).Perm
      (graph.edges.map fun edge => (edge, potency edge))
  stored : ∀ ranked, graph.indexed.rank? = some ranked →
    graph.rank? = some ranked

theorem ranksBy_potencyOf (graph : EdgeGraph) :
    graph.RanksBy fun edge => graph.potencyOf edge.destination where
  ranked := by
    refine ⟨_, rank?_eq_some_ranked graph, ?_⟩
    have placed := graph.ranked_perm.map
      fun placed => (placed.edge, placed.potency)
    have numbered : graph.edges.map
          (fun edge => (edge, graph.potencyOf edge.destination)) =
        (graph.edges.zipIdx.map Prod.fst).map
          fun edge => (edge, graph.potencyOf edge.destination) := by
      rw [List.zipIdx_map_fst]
    rw [List.map_map] at placed
    rw [numbered, List.map_map]
    exact placed
  stored := by
    intro ranked given
    rw [(rank?_indexed_eq_some_iff.mp given).2]
    exact rank?_eq_some_ranked graph

/-- Without cycles the potency of an edge that does not end in the sink is the
sum of the potencies of the edges that leave its destination.  Graphs of tries
have no cycles, and there it is positive and the number of edges into the sink
that can be reached from its destination. -/
theorem potency_of_acyclic :
    (∀ links : List Link, (ofLinks links).Acyclic →
      ∃ potency, (ofLinks links).RanksBy potency ∧
        ∀ edge ∈ (ofLinks links).edges, edge.destination ≠ sink →
          potency edge =
            (((ofLinks links).edges.filter
              (·.origin == edge.destination)).map potency).sum) ∧
    ∀ words : List Word,
      (Trie.ofWords words).edgeGraph.Acyclic ∧
        ∃ potency, (Trie.ofWords words).edgeGraph.RanksBy potency ∧
          ∀ edge ∈ (Trie.ofWords words).edgeGraph.edges,
            edge.destination ≠ sink →
              ((Trie.ofWords words).edgeGraph.endings
                edge.destination).encard = potency edge ∧
              1 ≤ potency edge := by
  constructor
  · intro links acyclic
    refine ⟨_, ranksBy_potencyOf _, ?_⟩
    intro edge member notSink
    rw [acyclic.potencyOf_eq_sum (endsDistinct_ofLinks links)
      (lt_nodeCount member).2 notSink, destinationsOf, List.map_map]
    rfl
  · intro words
    refine ⟨Trie.edgeGraph_acyclic words, _, ranksBy_potencyOf _, ?_⟩
    exact fun edge => Trie.encard_endings_edgeGraph words

/-- A node whose two successors meet again before the sink. -/
def meeting : List Link :=
  [⟨0, 2, "a"⟩, ⟨2, 3, "b"⟩, ⟨2, 4, "c"⟩, ⟨3, 4, "d"⟩, ⟨3, 1, "e"⟩, ⟨4, 1, "f"⟩]

theorem meeting_potencies :
    (ofLinks meeting).Acyclic ∧
      ∃ potency, (ofLinks meeting).RanksBy potency ∧
        ((ofLinks meeting).edges.map potency).Perm [3, 2, 1, 1, 1, 1] ∧
        ∀ edge ∈ (ofLinks meeting).edges, edge.destination ≠ sink →
          potency edge =
            (((ofLinks meeting).edges.filter
              (·.origin == edge.destination)).map potency).sum := by
  have acyclic : (ofLinks meeting).Acyclic :=
    acyclic_of_descends (fun node => if node = sink then 0 else 5 - node)
      (by decide)
  obtain ⟨potency, ranksBy, sums⟩ := potency_of_acyclic.1 meeting acyclic
  refine ⟨acyclic, potency, ranksBy, ?_, sums⟩
  obtain ⟨ranked, isRanking, placed⟩ := ranksBy.ranked
  have evaluated : (ofLinks meeting).rank?.map
      (·.map RankedEdge.potency) = some [3, 2, 1, 1, 1, 1] := by
    decide +kernel
  rw [isRanking] at evaluated
  have assigned := (placed.map Prod.snd).symm
  rw [List.map_map, List.map_map] at assigned
  exact assigned.trans (.of_eq (Option.some.inj evaluated))

end EdgeGraph

end Recognizer
