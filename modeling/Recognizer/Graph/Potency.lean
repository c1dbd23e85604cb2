import Recognizer.Graph.Basic

/-!
# Path counts and potencies

The potency of an edge is the number of simple paths from its destination to
the sink: how many ways of ending a word lie behind it.  A simple path visits
no node twice, and parallel successors count separately.

Paths are counted by going along one after the other, with the current path on a
stack and a mark on each of its nodes.  A node that is left loses its mark and may
be entered again, so the marks alone do not bound the count.  What does is that
every later entry follows a new attempt at an earlier node (`effort`).
-/

namespace Recognizer

/-- For every node the list of its successors. -/
abbrev SuccessorTable := List (List Nat)

/-- A node of the current path and how many of its successors were tried. -/
structure PathFrame where
  node : Nat
  tried : Nat
deriving DecidableEq

/-- A count under way: the current path with its last node first, the marks of
the nodes on it, and the number of paths found. -/
structure PathSearch where
  path : List PathFrame
  onPath : List Bool
  found : Nat
deriving DecidableEq

/-- How a count goes on. -/
inductive PathStep where
  | finished (found : Nat)
  /-- A node outside the table was looked up. -/
  | outside
  | moved (search : PathSearch)
deriving DecidableEq

namespace PathSearch

/-- The path of one node. -/
def start (table : SuccessorTable) (source : Nat) : PathSearch :=
  { path := [⟨source, 0⟩]
    onPath := (List.replicate table.length false).set source true
    found := 0 }

/-- Tries the next successor of the last node: it ends a path, is avoided
because it is on the path, or is entered.  A node without further successors is
left. -/
def step (table : SuccessorTable) (target : Nat) (search : PathSearch) :
    PathStep :=
  match search.path with
  | [] => .finished search.found
  | frame :: earlier =>
      match table[frame.node]? with
      | none => .outside
      | some successors =>
          match successors[frame.tried]? with
          | none =>
              .moved ⟨earlier, search.onPath.set frame.node false,
                search.found⟩
          | some next =>
              let advanced := ⟨frame.node, frame.tried + 1⟩ :: earlier
              if next = target then
                .moved ⟨advanced, search.onPath, search.found + 1⟩
              else
                match search.onPath[next]? with
                | none => .outside
                | some true => .moved ⟨advanced, search.onPath, search.found⟩
                | some false =>
                    .moved ⟨⟨next, 0⟩ :: advanced, search.onPath.set next true,
                      search.found⟩

/-- The moves of a count, each with what allows it. -/
inductive Moves (table : SuccessorTable) (target : Nat) :
    PathSearch → PathSearch → Prop where
  | leave {node tried found : Nat} {earlier : List PathFrame}
      {onPath : List Bool} {successors : List Nat} :
      table[node]? = some successors → successors[tried]? = none →
      Moves table target ⟨⟨node, tried⟩ :: earlier, onPath, found⟩
        ⟨earlier, onPath.set node false, found⟩
  | arrive {node tried found : Nat} {earlier : List PathFrame}
      {onPath : List Bool} {successors : List Nat} :
      table[node]? = some successors → successors[tried]? = some target →
      Moves table target ⟨⟨node, tried⟩ :: earlier, onPath, found⟩
        ⟨⟨node, tried + 1⟩ :: earlier, onPath, found + 1⟩
  | avoid {node tried found next : Nat} {earlier : List PathFrame}
      {onPath : List Bool} {successors : List Nat} :
      table[node]? = some successors → successors[tried]? = some next →
      next ≠ target → onPath[next]? = some true →
      Moves table target ⟨⟨node, tried⟩ :: earlier, onPath, found⟩
        ⟨⟨node, tried + 1⟩ :: earlier, onPath, found⟩
  | enter {node tried found next : Nat} {earlier : List PathFrame}
      {onPath : List Bool} {successors : List Nat} :
      table[node]? = some successors → successors[tried]? = some next →
      next ≠ target → onPath[next]? = some false →
      Moves table target ⟨⟨node, tried⟩ :: earlier, onPath, found⟩
        ⟨⟨next, 0⟩ :: ⟨node, tried + 1⟩ :: earlier, onPath.set next true,
          found⟩

variable {table : SuccessorTable} {target : Nat}

theorem moves_of_step {search moved : PathSearch}
    (stepped : search.step table target = .moved moved) :
    Moves table target search moved := by
  obtain ⟨path, onPath, found⟩ := search
  cases path with
  | nil => cases stepped
  | cons frame earlier =>
      simp only [step] at stepped
      split at stepped
      · cases stepped
      · rename_i successors listed
        split at stepped
        · rename_i exhausted
          cases stepped
          exact .leave listed exhausted
        · rename_i next tries
          split at stepped
          · rename_i isTarget
            cases stepped
            exact .arrive listed (isTarget ▸ tries)
          · rename_i notTarget
            split at stepped
            · cases stepped
            · rename_i marked
              cases stepped
              exact .avoid listed tries notTarget marked
            · rename_i unmarked
              cases stepped
              exact .enter listed tries notTarget unmarked

/-! ## Every count ends -/

/-- The weight of an attempt when some nodes have no mark: more than that of
everything that can be tried behind it, where one node less is free. -/
def weight (table : SuccessorTable) : Nat → Nat
  | 0 => 1
  | free + 1 => (table.flatten.length + 2) * weight table free

/-- The weight of what is left to try from a path on. -/
def effortFrom (table : SuccessorTable) : Nat → List PathFrame → Nat
  | _, [] => 0
  | free, frame :: earlier =>
      ((table[frame.node]?.getD []).length - frame.tried + 1)
          * weight table free
        + effortFrom table (free + 1) earlier

def effort (table : SuccessorTable) (search : PathSearch) : Nat :=
  effortFrom table (search.onPath.count false) search.path

theorem weight_pos (table : SuccessorTable) (free : Nat) :
    0 < weight table free := by
  induction free with
  | zero => exact Nat.one_pos
  | succ free ih => exact Nat.mul_pos (Nat.succ_pos _) ih

theorem weight_le {free more : Nat} (atMost : free ≤ more) :
    weight table free ≤ weight table more := by
  induction atMost with
  | refl => exact Nat.le_refl _
  | step _ ih =>
      exact Nat.le_trans ih (Nat.le_mul_of_pos_left _ (Nat.succ_pos _))

theorem effortFrom_le {free more : Nat} (atMost : free ≤ more)
    (path : List PathFrame) :
    effortFrom table free path ≤ effortFrom table more path := by
  induction path generalizing free more with
  | nil => exact Nat.le_refl _
  | cons frame earlier ih =>
      apply Nat.add_le_add
      · exact Nat.mul_le_mul_left _ (weight_le atMost)
      · exact ih (Nat.succ_le_succ atMost)

theorem count_set_false_le (onPath : List Bool) (node : Nat) :
    (onPath.set node false).count false ≤ onPath.count false + 1 := by
  by_cases inRange : node < onPath.length
  · rw [List.count_set inRange]
    simp
  · rw [List.set_eq_of_length_le (Nat.le_of_not_lt inRange)]
    exact Nat.le_succ _

theorem count_set_true {onPath : List Bool} {node : Nat}
    (unmarked : onPath[node]? = some false) :
    onPath.count false = (onPath.set node true).count false + 1 := by
  obtain ⟨inRange, isFalse⟩ := List.getElem?_eq_some_iff.mp unmarked
  have counted : 0 < onPath.count false :=
    List.count_pos_iff.mpr (List.mem_of_getElem? unmarked)
  rw [List.count_set inRange]
  simp [isFalse]
  omega

theorem effortFrom_tried {node tried next : Nat} {successors : List Nat}
    (listed : table[node]? = some successors)
    (tries : successors[tried]? = some next) (free : Nat)
    (earlier : List PathFrame) :
    effortFrom table free (⟨node, tried⟩ :: earlier) =
      effortFrom table free (⟨node, tried + 1⟩ :: earlier)
        + weight table free := by
  obtain ⟨inRange, _⟩ := List.getElem?_eq_some_iff.mp tries
  have left : successors.length - tried + 1 =
      (successors.length - (tried + 1) + 1) + 1 := by omega
  simp only [effortFrom, listed, Option.getD_some]
  rw [left, Nat.succ_mul]
  omega

/-- Everything that can be tried at a node weighs less than one attempt at the
node before it, where it was free. -/
theorem effortFrom_entered_lt (table : SuccessorTable) (node free : Nat)
    (earlier : List PathFrame) :
    effortFrom table free (⟨node, 0⟩ :: earlier) <
      weight table (free + 1) + effortFrom table (free + 1) earlier := by
  have few : (table[node]?.getD []).length ≤ table.flatten.length := by
    cases listed : table[node]? with
    | none => exact Nat.zero_le _
    | some successors =>
        exact (List.sublist_flatten_of_mem
          (List.mem_of_getElem? listed)).length_le
  rw [effortFrom, weight]
  apply Nat.add_lt_add_right
  apply Nat.mul_lt_mul_of_pos_right
  · exact Nat.succ_lt_succ (Nat.lt_succ_of_le few)
  · exact weight_pos table free

theorem effort_lt_of_moves {search moved : PathSearch}
    (moves : Moves table target search moved) :
    moved.effort table < search.effort table := by
  cases moves with
  | @leave node tried _ earlier onPath _ _ _ =>
      have less : effortFrom table ((onPath.set node false).count false)
          earlier ≤ effortFrom table (onPath.count false + 1) earlier :=
        effortFrom_le (count_set_false_le onPath node) earlier
      have weighs : 0 < ((table[node]?.getD []).length - tried + 1)
          * weight table (onPath.count false) :=
        Nat.mul_pos (Nat.succ_pos _) (weight_pos table _)
      simp only [effort, effortFrom]
      omega
  | @arrive _ _ _ earlier onPath _ listed tries =>
      have less := effortFrom_tried listed tries (onPath.count false) earlier
      have weighs := weight_pos table (onPath.count false)
      simp only [effort]
      omega
  | @avoid _ _ _ _ earlier onPath _ listed tries _ _ =>
      have less := effortFrom_tried listed tries (onPath.count false) earlier
      have weighs := weight_pos table (onPath.count false)
      simp only [effort]
      omega
  | @enter node tried _ next earlier onPath _ listed tries _ unmarked =>
      have less := effortFrom_tried listed tries (onPath.count false) earlier
      have entered := effortFrom_entered_lt table next
        ((onPath.set next true).count false) (⟨node, tried + 1⟩ :: earlier)
      rw [← count_set_true unmarked] at entered
      simp only [effort]
      omega

/-- Goes on until no path is left, which gives the number of paths found; nothing
when a node outside the table is looked up. -/
def run (table : SuccessorTable) (target : Nat) (search : PathSearch) :
    Option Nat :=
  match _stepped : search.step table target with
  | .finished found => some found
  | .outside => none
  | .moved moved => run table target moved
termination_by search.effort table
decreasing_by exact effort_lt_of_moves (moves_of_step _stepped)

end PathSearch

namespace SuccessorTable

/-- The number of simple paths from the source to the target, which is one
when they are the same node; nothing when a node outside the table is looked
up. -/
def countPaths (table : SuccessorTable) (source target : Nat) : Option Nat :=
  if source = target then some 1
  else if source < table.length then
    (PathSearch.start table source).run table target
  else none

end SuccessorTable

/-- An edge with its position in the order of discovery and its potency. -/
structure RankedEdge where
  position : Nat
  edge : Edge
  potency : Nat
deriving DecidableEq

namespace EdgeGraph

/-- Lists the destination of an edge behind the other successors of its
origin. -/
def listSuccessor? (table : SuccessorTable) (edge : Edge) :
    Option SuccessorTable :=
  table[edge.origin]?.map fun successors =>
    table.set edge.origin (successors ++ [edge.destination])

/-- The successors of every node, in the order of discovery, in a table with
room for some nodes. -/
def successors? (graph : EdgeGraph) (room : Nat) : Option SuccessorTable :=
  graph.edges.foldlM listSuccessor? (List.replicate room [])

/-- The number of simple paths from a node to the sink.  It is looked up where it
is known, and counted and noted where it is not. -/
def potency? (table : SuccessorTable) (known : List (Option Nat))
    (node : Nat) : Option (Nat × List (Option Nat)) :=
  match known[node]? with
  | none => none
  | some (some potency) => some (potency, known)
  | some none =>
      (table.countPaths node sink).map fun potency =>
        (potency, known.set node (some potency))

/-- Gives every edge the potency of its destination. -/
def rankFrom? (table : SuccessorTable) :
    List (Option Nat) → List (Edge × Nat) → Option (List RankedEdge)
  | _, [] => some []
  | known, (edge, position) :: later =>
      match potency? table known edge.destination with
      | none => none
      | some (potency, known) =>
          (rankFrom? table known later).map (⟨position, edge, potency⟩ :: ·)

/-- Puts an edge in front of the first one that is not more potent. -/
def placeByPotency (ranked : RankedEdge) : List RankedEdge → List RankedEdge
  | [] => [ranked]
  | head :: tail =>
      if head.potency ≤ ranked.potency then ranked :: head :: tail
      else head :: placeByPotency ranked tail

/-- The edges by decreasing potency; equally potent edges stay in the order of
their discovery.  Nothing when a node is looked up for which the tables have no
room. -/
def rankWithin? (graph : EdgeGraph) (room : Nat) : Option (List RankedEdge) :=
  (graph.successors? room).bind fun table =>
    (rankFrom? table (List.replicate room none)
      graph.edges.zipIdx).map (·.foldr placeByPotency [])

/-- The ranking in tables with room for every node. -/
def rank? (graph : EdgeGraph) : Option (List RankedEdge) :=
  graph.rankWithin? graph.nodeCount

/-- The ranked edges; there is no edge whose nodes are not counted. -/
def ranked (graph : EdgeGraph) : List RankedEdge :=
  graph.rank?.getD []

end EdgeGraph

end Recognizer
