import Mathlib.Algebra.BigOperators.Group.List.Basic
import Mathlib.Algebra.BigOperators.Ring.Finset
import Mathlib.Logic.Relation
import Recognizer.Proofs.Graph.Ranking

/-!
# Potencies without cycles

Where no path leads back to its start, every path is simple.  The paths to the
sink are then told apart by their first edges, which makes the potency of a node
a sum over these.  Where ways also never meet again before the sink, a path to the
sink is told apart by its last edge alone.
-/

namespace Recognizer

namespace EdgeGraph

open Relation

variable {graph : EdgeGraph} {origin last : Nat} {nodes : List Nat}

/-- No way along edges leads back to where it starts. -/
def Acyclic (graph : EdgeGraph) : Prop :=
  ∀ node, ¬ TransGen graph.Joined node node

theorem Acyclic.nodup (acyclic : graph.Acyclic)
    (joined : nodes.IsChain graph.Joined) : nodes.Nodup := by
  have onward : nodes.IsChain (TransGen graph.Joined) :=
    joined.imp fun _ _ => TransGen.single
  refine onward.pairwise.imp ?_
  rintro node _ leads rfl
  exact acyclic node leads

theorem acyclic_of_descends (depth : Nat → Nat)
    (descends : ∀ edge ∈ graph.edges,
      depth edge.destination < depth edge.origin) : graph.Acyclic := by
  have down : ∀ {node other : Nat}, TransGen graph.Joined node other →
      depth other < depth node := by
    intro node other leads
    induction leads with
    | single joined =>
        obtain ⟨edge, member, rfl, rfl⟩ := joined
        exact descends edge member
    | tail _ joined ih =>
        obtain ⟨edge, member, rfl, rfl⟩ := joined
        exact Nat.lt_trans (descends edge member) ih
  intro node cycle
  exact Nat.lt_irrefl _ (down cycle)

/-! ## The first edge of a path -/

/-- A node that was left is not met again. -/
theorem Acyclic.simplePath_iff (acyclic : graph.Acyclic)
    (different : origin ≠ last) :
    graph.SimplePath origin last nodes ↔
      ∃ next rest, nodes = origin :: rest ∧ graph.Joined origin next ∧
        graph.SimplePath next last rest := by
  constructor
  · rintro ⟨starts, ends, distinct, joined⟩
    obtain ⟨rest, rfl⟩ := List.head?_eq_some_iff.mp starts
    cases rest with
    | nil => exact absurd (Option.some.inj ends) different
    | cons next later =>
        obtain ⟨first, rejoined⟩ := List.isChain_cons_cons.mp joined
        rw [List.getLast?_cons_cons] at ends
        exact ⟨next, next :: later, rfl, first, rfl, ends,
          (List.nodup_cons.mp distinct).2, rejoined⟩
  · rintro ⟨next, rest, rfl, first, path⟩
    obtain ⟨later, rfl⟩ := List.head?_eq_some_iff.mp path.starts
    have joined : (origin :: next :: later).IsChain graph.Joined :=
      List.isChain_cons_cons.mpr ⟨first, path.joined⟩
    refine ⟨rfl, ?_, acyclic.nodup joined, joined⟩
    rw [List.getLast?_cons_cons]
    exact path.ends

theorem encard_paths_through (origin : Nat) {nexts : List Nat}
    (distinct : nexts.Nodup) :
    {nodes | ∃ next ∈ nexts, ∃ rest, nodes = origin :: rest ∧
        graph.SimplePath next last rest}.encard =
      (nexts.map fun next =>
        {rest | graph.SimplePath next last rest}.encard).sum := by
  induction nexts with
  | nil => simp
  | cons next others ih =>
      obtain ⟨isNew, othersDistinct⟩ := List.nodup_cons.mp distinct
      have split :
          {nodes | ∃ other ∈ next :: others, ∃ rest,
              nodes = origin :: rest ∧ graph.SimplePath other last rest} =
            (origin :: ·) '' {rest | graph.SimplePath next last rest} ∪
              {nodes | ∃ other ∈ others, ∃ rest,
                nodes = origin :: rest ∧
                  graph.SimplePath other last rest} := by
        ext nodes
        constructor
        · rintro ⟨other, member, rest, rfl, path⟩
          rcases List.mem_cons.mp member with rfl | among
          · exact Or.inl ⟨rest, path, rfl⟩
          · exact Or.inr ⟨other, among, rest, rfl, path⟩
        · rintro (⟨rest, path, rfl⟩ | ⟨other, among, rest, rfl, path⟩)
          · exact ⟨next, List.mem_cons_self, rest, rfl, path⟩
          · exact ⟨other, List.mem_cons_of_mem _ among, rest, rfl, path⟩
      have apart :
          Disjoint ((origin :: ·) '' {rest | graph.SimplePath next last rest})
            {nodes | ∃ other ∈ others, ∃ rest, nodes = origin :: rest ∧
              graph.SimplePath other last rest} := by
        rw [Set.disjoint_left]
        rintro _ ⟨rest, path, rfl⟩ ⟨other, among, _, same, otherPath⟩
        cases same
        cases path.starts.symm.trans otherPath.starts
        exact isNew among
      rw [split, Set.encard_union_eq apart,
        (List.cons_injective (a := origin)).encard_image, ih othersDistinct,
        List.map_cons, List.sum_cons]

/-- The potency of a node is the sum of those of its successors. -/
theorem Acyclic.potencyOf_eq_sum (acyclic : graph.Acyclic)
    (distinct : graph.EndsDistinct) {node : Nat}
    (inRange : node < graph.nodeCount) (different : node ≠ sink) :
    graph.potencyOf node =
      ((destinationsOf node graph.edges).map graph.potencyOf).sum := by
  have firstEdges : {nodes | graph.SimplePath node sink nodes} =
      {nodes | ∃ next ∈ destinationsOf node graph.edges, ∃ rest,
        nodes = node :: rest ∧ graph.SimplePath next sink rest} := by
    ext nodes
    refine (acyclic.simplePath_iff different).trans ?_
    constructor
    · rintro ⟨next, rest, same, joined, path⟩
      exact ⟨next, mem_destinationsOf.mpr joined, rest, same, path⟩
    · rintro ⟨next, member, rest, same, path⟩
      exact ⟨next, rest, same, mem_destinationsOf.mp member, path⟩
  have counted : (destinationsOf node graph.edges).map (fun next =>
        {rest | graph.SimplePath next sink rest}.encard) =
      ((destinationsOf node graph.edges).map graph.potencyOf).map
        (Nat.cast : Nat → ℕ∞) := by
    rw [List.map_map]
    apply List.map_congr_left
    intro next member
    obtain ⟨edge, known, _, rfl⟩ := mem_destinationsOf.mp member
    exact distinct.encard_eq_potencyOf (lt_nodeCount known).2
  have sums : (graph.potencyOf node : ℕ∞) =
      ((destinationsOf node graph.edges).map graph.potencyOf).sum := by
    rw [← distinct.encard_eq_potencyOf inRange, firstEdges,
      encard_paths_through node (distinct.nodup_destinationsOf node), counted,
      Nat.cast_list_sum]
  exact_mod_cast sums

/-! ## The last edge of a path -/

theorem SimplePath.last_edge (path : graph.SimplePath origin last nodes)
    (different : origin ≠ last) :
    ∃ earlier node, nodes = earlier ++ [last] ∧ graph.Joined node last ∧
      graph.SimplePath origin node earlier := by
  obtain ⟨starts, ends, distinct, joined⟩ := path
  obtain ⟨earlier, rfl⟩ := List.getLast?_eq_some_iff.mp ends
  rcases List.eq_nil_or_concat earlier with rfl | ⟨front, node, rfl⟩
  · exact absurd (Option.some.inj starts).symm different
  · rw [List.concat_eq_append] at starts distinct joined ⊢
    obtain ⟨rejoined, _, steps⟩ := List.isChain_append.mp joined
    refine ⟨front ++ [node], node, rfl,
      steps node (by simp) last (by simp), ?_, by simp,
      (List.nodup_append.mp distinct).1, rejoined⟩
    rw [List.head?_append_of_ne_nil _ (by simp)] at starts
    exact starts

theorem Acyclic.simplePath_concat (acyclic : graph.Acyclic) {node : Nat}
    (path : graph.SimplePath origin node nodes)
    (joined : graph.Joined node last) :
    graph.SimplePath origin last (nodes ++ [last]) := by
  obtain ⟨later, rfl⟩ := List.head?_eq_some_iff.mp path.starts
  have rejoined : ((origin :: later) ++ [last]).IsChain graph.Joined := by
    refine List.isChain_append.mpr
      ⟨path.joined, List.isChain_singleton _, ?_⟩
    intro before isLast after isNext
    cases path.ends.symm.trans isLast
    cases isNext
    exact joined
  exact ⟨rfl, List.getLast?_concat, acyclic.nodup rejoined, rejoined⟩

theorem Acyclic.exists_simplePath (acyclic : graph.Acyclic)
    (leads : ReflTransGen graph.Joined origin last) :
    ∃ nodes, graph.SimplePath origin last nodes := by
  induction leads with
  | refl =>
      exact ⟨[origin], rfl, rfl, List.nodup_singleton _,
        List.isChain_singleton _⟩
  | tail _ joined ih =>
      obtain ⟨nodes, path⟩ := ih
      exact ⟨_, acyclic.simplePath_concat path joined⟩

theorem SimplePath.leads (path : graph.SimplePath origin last nodes) :
    ReflTransGen graph.Joined origin last := by
  obtain ⟨later, rfl⟩ := List.head?_eq_some_iff.mp path.starts
  apply List.relationReflTransGen_of_exists_isChain_cons later path.joined
  exact List.getLast_of_getLast?_eq_some path.ends

theorem SimplePath.eq_singleton (path : graph.SimplePath origin origin nodes) :
    nodes = [origin] := by
  obtain ⟨starts, ends, distinct, _⟩ := path
  obtain ⟨later, rfl⟩ := List.head?_eq_some_iff.mp starts
  cases later with
  | nil => rfl
  | cons next others =>
      rw [List.getLast?_cons_cons] at ends
      exact absurd (List.mem_of_getLast? ends) (List.nodup_cons.mp distinct).1

/-- Ways that parted do not meet again before the sink, where they end. -/
structure Branching (graph : EdgeGraph) : Prop where
  entered_once : ∀ first second node, node ≠ sink →
    graph.Joined first node → graph.Joined second node → first = second
  sink_ends : ∀ node, ¬ graph.Joined sink node

theorem Branching.simplePath_unique (branching : graph.Branching)
    {others : List Nat} (beforeSink : last ≠ sink)
    (path : graph.SimplePath origin last nodes)
    (other : graph.SimplePath origin last others) : nodes = others := by
  -- The induction goes back from the last node: it was entered from one node
  -- only, and neither path can have stopped there unless it starts there.
  induction nodes using List.reverseRecOn generalizing last others with
  | nil => cases path.starts
  | append_singleton earlier node ih =>
      by_cases same : origin = last
      · subst same
        rw [path.eq_singleton, other.eq_singleton]
      · obtain ⟨_, before, split, joined, shorter⟩ := path.last_edge same
        obtain ⟨rfl, rfl⟩ := List.append_singleton_inj.mp split
        obtain ⟨otherEarlier, otherBefore, rfl, otherJoined, otherShorter⟩ :=
          other.last_edge same
        cases branching.entered_once _ _ _ beforeSink joined otherJoined
        have notSink : before ≠ sink := by
          rintro rfl
          exact branching.sink_ends _ joined
        rw [ih notSink shorter otherShorter]

/-- The edges into the sink that leave a node or one that it leads to. -/
def endings (graph : EdgeGraph) (node : Nat) : Set Edge :=
  {edge | edge ∈ graph.edges ∧ edge.destination = sink ∧
    ReflTransGen graph.Joined node edge.origin}

/-- The nodes are those of a simple path whose last edge leads into the sink. -/
def EndsWith (graph : EdgeGraph) (node : Nat) (edge : Edge)
    (nodes : List Nat) : Prop :=
  edge ∈ graph.edges ∧ edge.destination = sink ∧
    ∃ earlier, nodes = earlier ++ [sink] ∧
      graph.SimplePath node edge.origin earlier

theorem Acyclic.exists_endsWith_iff (acyclic : graph.Acyclic) {node : Nat}
    {edge : Edge} :
    (∃ nodes, graph.EndsWith node edge nodes) ↔ edge ∈ graph.endings node := by
  constructor
  · rintro ⟨_, member, isSink, _, _, path⟩
    exact ⟨member, isSink, path.leads⟩
  · rintro ⟨member, isSink, leads⟩
    obtain ⟨earlier, path⟩ := acyclic.exists_simplePath leads
    exact ⟨_, member, isSink, earlier, rfl, path⟩

theorem Acyclic.endsWith_exists_iff (acyclic : graph.Acyclic) {node : Nat}
    (different : node ≠ sink) :
    (∃ edge, graph.EndsWith node edge nodes) ↔
      graph.SimplePath node sink nodes := by
  constructor
  · rintro ⟨edge, member, isSink, earlier, rfl, path⟩
    exact acyclic.simplePath_concat path ⟨edge, member, rfl, isSink⟩
  · intro path
    obtain ⟨earlier, _, same, ⟨edge, member, rfl, isSink⟩, shorter⟩ :=
      path.last_edge different
    exact ⟨edge, member, isSink, earlier, same, shorter⟩

/-- Every edge into the sink ends at most one path from a node. -/
theorem Branching.endsWith_unique (branching : graph.Branching)
    (distinct : graph.EndsDistinct) (node : Nat) :
    Relator.BiUnique (graph.EndsWith node) := by
  constructor
  · rintro edge other _ ⟨member, isSink, earlier, rfl, path⟩
      ⟨otherMember, otherIsSink, _, same, otherPath⟩
    obtain ⟨rfl, _⟩ := List.append_singleton_inj.mp same
    exact distinct.edge_eq member otherMember
      (Option.some.inj (path.ends.symm.trans otherPath.ends))
      (isSink.trans otherIsSink.symm)
  · rintro edge _ _ ⟨member, isSink, earlier, rfl, path⟩
      ⟨_, _, others, rfl, otherPath⟩
    have beforeSink : edge.origin ≠ sink := by
      intro leavesSink
      exact branching.sink_ends edge.destination
        ⟨edge, member, leavesSink, rfl⟩
    rw [branching.simplePath_unique beforeSink path otherPath]

/-- Every edge into the sink that can be reached ends exactly one path. -/
theorem Branching.encard_endings (branching : graph.Branching)
    (acyclic : graph.Acyclic) (distinct : graph.EndsDistinct) {node : Nat}
    (different : node ≠ sink) :
    (graph.endings node).encard =
      {nodes | graph.SimplePath node sink nodes}.encard := by
  have counted :=
    encard_eq_of_biUnique (branching.endsWith_unique distinct node)
  simp only [acyclic.exists_endsWith_iff,
    acyclic.endsWith_exists_iff different] at counted
  exact counted

theorem Acyclic.potencyOf_pos (acyclic : graph.Acyclic)
    (distinct : graph.EndsDistinct) {node : Nat}
    (inRange : node < graph.nodeCount)
    (leads : ReflTransGen graph.Joined node sink) :
    0 < graph.potencyOf node := by
  obtain ⟨nodes, path⟩ := acyclic.exists_simplePath leads
  have some : {nodes | graph.SimplePath node sink nodes}.encard ≠ 0 :=
    Set.encard_ne_zero.mpr ⟨nodes, path⟩
  rw [distinct.encard_eq_potencyOf inRange, Nat.cast_ne_zero] at some
  exact Nat.pos_of_ne_zero some

end EdgeGraph

end Recognizer
