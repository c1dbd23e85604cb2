import Mathlib.Data.List.Chain
import Recognizer.Proofs.Graph.Links
import Recognizer.Proofs.Graph.PathCount

/-!
# Simple paths of a graph

The successors of a node are the ends of its edges, and every node is in the
table of successors.  As an edge is known by its ends, no successor is repeated,
so the simple walks along the entries of the table are told apart by the nodes
they visit.  The potency of a node therefore is the number of simple paths from
there to the sink.
-/

namespace Recognizer

/-- Of what is related one to one there is as much on either side. -/
theorem encard_eq_of_biUnique {α β : Type} {related : α → β → Prop}
    (unique : Relator.BiUnique related) :
    {left | ∃ right, related left right}.encard =
      {right | ∃ left, related left right}.encard := by
  have lefts : Prod.fst '' {pair : α × β | related pair.1 pair.2} =
      {left | ∃ right, related left right} := by
    ext left
    simp
  have rights : Prod.snd '' {pair : α × β | related pair.1 pair.2} =
      {right | ∃ left, related left right} := by
    ext right
    simp
  have byLeft : Set.InjOn Prod.fst {pair : α × β | related pair.1 pair.2} := by
    rintro ⟨left, right⟩ isRelated ⟨_, other⟩ otherRelated rfl
    exact Prod.ext rfl (unique.2 isRelated otherRelated)
  have byRight :
      Set.InjOn Prod.snd {pair : α × β | related pair.1 pair.2} := by
    rintro ⟨left, right⟩ isRelated ⟨other, _⟩ otherRelated rfl
    exact Prod.ext (unique.1 isRelated otherRelated) rfl
  rw [← lefts, ← rights, byLeft.encard_image, byRight.encard_image]

namespace EdgeGraph

variable {graph : EdgeGraph}

/-- An edge leads from the origin to the destination. -/
def Joined (graph : EdgeGraph) (origin destination : Nat) : Prop :=
  ∃ edge ∈ graph.edges,
    edge.origin = origin ∧ edge.destination = destination

/-- The nodes of a path along edges that visits no node twice.  There is at most
one edge from a node to the next. -/
structure SimplePath (graph : EdgeGraph) (origin last : Nat)
    (nodes : List Nat) : Prop where
  starts : nodes.head? = some origin
  ends : nodes.getLast? = some last
  distinct : nodes.Nodup
  joined : nodes.IsChain graph.Joined

/-! ## The table of successors -/

/-- The ends of the edges of a node, in the order of discovery. -/
def destinationsOf (node : Nat) (edges : List Edge) : List Nat :=
  (edges.filter (·.origin == node)).map Edge.destination

/-- The successors of every node that is counted. -/
def successorTable (graph : EdgeGraph) : SuccessorTable :=
  (List.range graph.nodeCount).map (destinationsOf · graph.edges)

theorem mem_destinationsOf {node next : Nat} :
    next ∈ destinationsOf node graph.edges ↔ graph.Joined node next := by
  simp [destinationsOf, Joined, and_assoc]

theorem foldlM_listSuccessor? {count : Nat} {edges : List Edge}
    (known : ∀ edge ∈ edges, edge.origin < count)
    (listed : Nat → List Nat) :
    edges.foldlM listSuccessor? ((List.range count).map listed) =
      some ((List.range count).map fun node =>
        listed node ++ destinationsOf node edges) := by
  induction edges generalizing listed with
  | nil => simp [destinationsOf]
  | cons edge later ih =>
      obtain ⟨here, others⟩ := List.forall_mem_cons.mp known
      -- One edge lists one more successor of its origin.
      have stepped :
          listSuccessor? ((List.range count).map listed) edge =
            some ((List.range count).map
              (Function.update listed edge.origin
                (listed edge.origin ++ [edge.destination]))) := by
        simp only [listSuccessor?, List.getElem?_map, List.getElem?_range here,
          Option.map_some, Option.some.injEq]
        apply List.ext_getElem
        · simp
        · intro node _ _
          simp only [List.getElem_set, List.getElem_map, List.getElem_range,
            Function.update_apply, eq_comm]
      rw [List.foldlM_cons, stepped, Option.bind_eq_bind, Option.bind_some,
        ih others]
      congr 2
      funext node
      by_cases same : edge.origin = node
      · subst same
        simp [destinationsOf]
      · simp [destinationsOf, same, Function.update_of_ne (Ne.symm same)]

theorem successors?_eq (graph : EdgeGraph) :
    graph.successors? graph.nodeCount = some graph.successorTable := by
  have nothing : List.replicate graph.nodeCount [] =
      (List.range graph.nodeCount).map fun _ => ([] : List Nat) := by
    simp
  rw [successors?, nothing,
    foldlM_listSuccessor? fun edge member => (lt_nodeCount member).1]
  rfl

theorem leads_successorTable_iff {node entry next : Nat} :
    graph.successorTable.Leads node entry next ↔
      (destinationsOf node graph.edges)[entry]? = some next := by
  simp only [SuccessorTable.Leads, successorTable, List.getElem?_map,
    Option.map_eq_some_iff]
  constructor
  · rintro ⟨_, ⟨other, inRange, rfl⟩, found⟩
    have same := (List.getElem?_eq_some_iff.mp inRange).2
    rw [List.getElem_range] at same
    rw [same]
    exact found
  · intro found
    obtain ⟨edge, member, rfl, _⟩ :=
      mem_destinationsOf.mp (List.mem_of_getElem? found)
    exact ⟨_, ⟨_, List.getElem?_range (lt_nodeCount member).1, rfl⟩, found⟩

theorem EndsDistinct.nodup_destinationsOf (distinct : graph.EndsDistinct)
    (node : Nat) : (destinationsOf node graph.edges).Nodup := by
  refine List.Nodup.map_on ?_ ((List.Nodup.of_map _ distinct).filter _)
  intro edge member other otherMember same
  obtain ⟨known, leaves⟩ := List.mem_filter.mp member
  obtain ⟨otherKnown, otherLeaves⟩ := List.mem_filter.mp otherMember
  rw [beq_iff_eq] at leaves otherLeaves
  exact distinct.edge_eq known otherKnown (leaves.trans otherLeaves.symm) same

/-! ## Walks and paths -/

theorem walk_joined {node : Nat} {entries nodes : List Nat}
    (walk : graph.successorTable.Walk node entries nodes) :
    nodes.IsChain graph.Joined := by
  induction walk with
  | stay => exact List.isChain_singleton _
  | follow leads rest ih =>
      obtain ⟨later, rfl⟩ := rest.exists_cons
      have joined := mem_destinationsOf.mp
        (List.mem_of_getElem? (leads_successorTable_iff.mp leads))
      exact List.isChain_cons_cons.mpr ⟨joined, ih⟩

theorem exists_walk {node : Nat} {later : List Nat}
    (joined : (node :: later).IsChain graph.Joined) :
    ∃ entries, graph.successorTable.Walk node entries (node :: later) := by
  induction later generalizing node with
  | nil => exact ⟨[], .stay node⟩
  | cons next others ih =>
      obtain ⟨first, rest⟩ := List.isChain_cons_cons.mp joined
      obtain ⟨entries, walk⟩ := ih rest
      obtain ⟨entry, found⟩ :=
        List.mem_iff_getElem?.mp (mem_destinationsOf.mpr first)
      exact ⟨entry :: entries,
        .follow (leads_successorTable_iff.mpr found) walk⟩

theorem EndsDistinct.entries_unique (distinct : graph.EndsDistinct)
    {node : Nat} {entries others nodes : List Nat}
    (walk : graph.successorTable.Walk node entries nodes)
    (other : graph.successorTable.Walk node others nodes) :
    entries = others := by
  induction walk generalizing others with
  | stay =>
      cases other with
      | stay => rfl
      | follow _ rest =>
          obtain ⟨_, impossible⟩ := rest.exists_cons
          cases impossible
  | @follow node entry next _ _ leads rest ih =>
      cases other with
      | stay =>
          obtain ⟨_, impossible⟩ := rest.exists_cons
          cases impossible
      | @follow _ otherEntry otherNext _ _ otherLeads otherRest =>
          obtain ⟨later, rfl⟩ := rest.exists_cons
          obtain ⟨_, same⟩ := otherRest.exists_cons
          cases same
          have found := leads_successorTable_iff.mp leads
          have otherFound := leads_successorTable_iff.mp otherLeads
          have inRange := (List.getElem?_eq_some_iff.mp found).1
          have sameEntry : entry = otherEntry :=
            (List.getElem?_inj inRange (distinct.nodup_destinationsOf node)).mp
              (found.trans otherFound.symm)
          rw [sameEntry, ih otherRest]

/-- There are as many simple paths as simple walks. -/
theorem EndsDistinct.encard_simplePaths (distinct : graph.EndsDistinct)
    (origin last : Nat) :
    {nodes | graph.SimplePath origin last nodes}.encard =
      {entries | graph.successorTable.SimpleWalk origin last
        entries}.encard := by
  have unique : Relator.BiUnique fun entries nodes =>
      graph.successorTable.Walk origin entries nodes ∧
        nodes.getLast? = some last ∧ nodes.Nodup := by
    constructor
    · rintro entries others nodes ⟨walk, _⟩ ⟨other, _⟩
      exact distinct.entries_unique walk other
    · rintro entries nodes others ⟨walk, _⟩ ⟨other, _⟩
      exact walk.nodes_unique other
  have paths : {nodes | graph.SimplePath origin last nodes} =
      {nodes | ∃ entries, graph.successorTable.Walk origin entries nodes ∧
        nodes.getLast? = some last ∧ nodes.Nodup} := by
    ext nodes
    constructor
    · rintro ⟨starts, ends, simple, joined⟩
      obtain ⟨later, rfl⟩ := List.head?_eq_some_iff.mp starts
      obtain ⟨entries, walk⟩ := exists_walk joined
      exact ⟨entries, walk, ends, simple⟩
    · rintro ⟨entries, walk, ends, simple⟩
      obtain ⟨later, same⟩ := walk.exists_cons
      exact ⟨by rw [same]; rfl, ends, simple, walk_joined walk⟩
  rw [paths]
  exact (encard_eq_of_biUnique unique).symm

/-! ## Potencies -/

/-- The potency of a node, as it is counted. -/
def potencyOf (graph : EdgeGraph) (node : Nat) : Nat :=
  (graph.successorTable.countPaths node sink).getD 0

theorem successorTable_inside (graph : EdgeGraph) :
    ∀ successors ∈ graph.successorTable, ∀ next ∈ successors,
      next < graph.successorTable.length := by
  intro successors listed next member
  obtain ⟨node, _, rfl⟩ := List.mem_map.mp listed
  obtain ⟨edge, known, _, rfl⟩ := mem_destinationsOf.mp member
  simpa [successorTable] using (lt_nodeCount known).2

theorem exists_countPaths_sink {node : Nat}
    (inRange : node < graph.nodeCount) :
    ∃ count : Nat,
      graph.successorTable.countPaths node sink = some count ∧
        {entries | graph.successorTable.SimpleWalk node sink
          entries}.encard = count := by
  apply SuccessorTable.exists_countPaths
  refine Or.inr ⟨by simpa [successorTable] using inRange, ?_⟩
  exact fun successors listed next member _ =>
    graph.successorTable_inside successors listed next member

/-- Counting looks up no node outside the table. -/
theorem countPaths_eq {node : Nat} (inRange : node < graph.nodeCount) :
    graph.successorTable.countPaths node sink =
      some (graph.potencyOf node) := by
  obtain ⟨count, counted, _⟩ := exists_countPaths_sink inRange
  rw [potencyOf, counted, Option.getD_some]

theorem EndsDistinct.encard_eq_potencyOf (distinct : graph.EndsDistinct)
    {node : Nat} (inRange : node < graph.nodeCount) :
    {nodes | graph.SimplePath node sink nodes}.encard =
      graph.potencyOf node := by
  obtain ⟨count, counted, walks⟩ := exists_countPaths_sink inRange
  rw [distinct.encard_simplePaths, walks, potencyOf, counted,
    Option.getD_some]

end EdgeGraph

end Recognizer
