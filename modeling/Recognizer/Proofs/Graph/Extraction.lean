import Mathlib.Data.List.Induction
import Mathlib.Data.List.Nodup
import Mathlib.Data.List.Perm.Subperm
import Mathlib.Logic.Function.Basic
import Recognizer.Graph.Extraction
import Recognizer.Proofs.Graph.Paths
import Recognizer.Proofs.Trie

/-!
# The graph of a trie

The search gives every trie node that it opens a number of its own.  What it
keeps is said by `Extraction`: which trie nodes were visited, that the children
of opened nodes are visited or pending, and that the graph shows exactly the
visited nodes.  Nothing is visited twice, so the fuel suffices, and in the end
every node of the trie is shown.
-/

namespace Recognizer

namespace Trie

/-- A trie node is opened, and gets a number, when it is the root or is visited
and has children. -/
def Opened (trie : Trie) (visited : List Word) (path : Word) : Prop :=
  path = root ∨ path ∈ visited ∧ trie.hasChildren path = true

/-- The graph nodes that the edges to a trie node lead to: the sink when a word
ends there, and its own number when it has children. -/
def LeadsTo (trie : Trie) (number : Word → Nat) (node : TrieNode)
    (destination : Nat) : Prop :=
  node.isWordEnd = true ∧ destination = EdgeGraph.sink ∨
    trie.hasChildren node.path = true ∧ destination = number node.path

/-- Opened nodes have different numbers, all of them in use, and none has that
of the sink. -/
structure Numbering (number : Word → Nat) (opened : Word → Prop)
    (unused : Nat) : Prop where
  number_root : number root = EdgeGraph.start
  ne_sink : ∀ path, opened path → number path ≠ EdgeGraph.sink
  lt : ∀ path, opened path → number path < unused
  inj : ∀ first second, opened first → opened second →
    number first = number second → first = second
  sink_lt : EdgeGraph.sink < unused

/-- What the search keeps. -/
structure Extraction (trie : Trie) (number : Word → Nat)
    (visited : List Word) (pending : List PendingNode) (unused : Nat)
    (graph : EdgeGraph) : Prop where
  distinct : (visited ++ pending.map (·.node.path)).Nodup
  numbering : Numbering number (trie.Opened visited) unused
  visited_child : ∀ path ∈ visited, path ∈ trie.paths ∧
    ∃ parent symbol, trie.Opened visited parent ∧ path = parent ++ [symbol]
  pending_child : ∀ waiting ∈ pending, waiting.node ∈ trie.nodes ∧
    ∃ parent, trie.Opened visited parent ∧ waiting.origin = number parent ∧
      waiting.node.path = parent ++ [waiting.symbol]
  covered : ∀ parent symbol, trie.Opened visited parent →
    parent ++ [symbol] ∈ trie.paths →
      parent ++ [symbol] ∈ visited ++ pending.map (·.node.path)
  carries_iff : ∀ origin symbol destination,
    graph.Carries origin symbol destination ↔
      ∃ parent, ∃ node ∈ trie.nodes, node.path ∈ visited ∧
        node.path = parent ++ [symbol] ∧ origin = number parent ∧
          trie.LeadsTo number node destination

theorem opened_cons {trie : Trie} {visited : List Word} {path other : Word} :
    trie.Opened (path :: visited) other ↔
      trie.Opened visited other ∨
        other = path ∧ trie.hasChildren path = true := by
  simp only [Opened, List.mem_cons]
  constructor
  · intro opened
    rcases opened with isRoot | ⟨rfl | old, inner⟩
    · exact Or.inl (Or.inl isRoot)
    · exact Or.inr ⟨rfl, inner⟩
    · exact Or.inl (Or.inr ⟨old, inner⟩)
  · intro opened
    rcases opened with (isRoot | ⟨old, inner⟩) | ⟨rfl, inner⟩
    · exact Or.inl isRoot
    · exact Or.inr ⟨Or.inr old, inner⟩
    · exact Or.inr ⟨Or.inl rfl, inner⟩

theorem Numbering.extend {number renumbered : Word → Nat}
    {opened opened' : Word → Prop} {unused next : Nat}
    (numbering : Numbering number opened unused) (rootOpened : opened root)
    (agree : ∀ path, opened path → renumbered path = number path)
    (atLeast : unused ≤ next) {added : Word}
    (grown : ∀ path, opened' path → opened path ∨
      path = added ∧ renumbered added = unused ∧ unused < next) :
    Numbering renumbered opened' next where
  number_root := (agree root rootOpened).trans numbering.number_root
  ne_sink := by
    intro path isOpened
    rcases grown path isOpened with old | ⟨rfl, isUnused, _⟩
    · rw [agree path old]
      exact numbering.ne_sink path old
    · have sinkUsed := numbering.sink_lt
      omega
  lt := by
    intro path isOpened
    rcases grown path isOpened with old | ⟨rfl, isUnused, used⟩
    · rw [agree path old]
      exact Nat.lt_of_lt_of_le (numbering.lt path old) atLeast
    · rw [isUnused]
      exact used
  inj := by
    intro first second firstOpened secondOpened same
    rcases grown first firstOpened with firstOld | ⟨rfl, isUnused, _⟩
    · rcases grown second secondOpened with secondOld | ⟨rfl, isUnused, _⟩
      · rw [agree first firstOld, agree second secondOld] at same
        exact numbering.inj first second firstOld secondOld same
      · have firstUsed := numbering.lt first firstOld
        rw [agree first firstOld] at same
        omega
    · rcases grown second secondOpened with secondOld | ⟨rfl, _, _⟩
      · have secondUsed := numbering.lt second secondOld
        rw [agree second secondOld] at same
        omega
      · rfl
  sink_lt := Nat.lt_of_lt_of_le numbering.sink_lt atLeast

/-! ## The children of a node -/

theorem mem_pendingChildren {trie : Trie} {origin : Nat} {path : Word}
    {waiting : PendingNode} :
    waiting ∈ trie.pendingChildren origin path ↔
      waiting.node ∈ trie.nodes ∧ waiting.origin = origin ∧
        waiting.node.path = path ++ [waiting.symbol] := by
  obtain ⟨waitingOrigin, symbol, node⟩ := waiting
  simp only [pendingChildren, List.mem_filterMap, Option.map_eq_some_iff,
    Word.extension?_eq_some_iff, PendingNode.mk.injEq]
  constructor
  · intro child
    obtain ⟨_, member, _, extended, rfl, rfl, rfl⟩ := child
    exact ⟨member, rfl, extended⟩
  · intro child
    obtain ⟨member, rfl, extended⟩ := child
    exact ⟨node, member, symbol, extended, rfl, rfl, rfl⟩

theorem map_pendingChildren (trie : Trie) (origin : Nat) (path : Word) :
    (trie.pendingChildren origin path).map (·.node.path) =
      trie.paths.filter fun other => (path.extension? other).isSome := by
  obtain ⟨nodes⟩ := trie
  simp only [pendingChildren, paths]
  induction nodes with
  | nil => rfl
  | cons node later ih =>
      cases extended : path.extension? node.path with
      | none => simp [extended, ih]
      | some symbol => simp [extended, ih]

theorem pendingChildren_eq_nil {trie : Trie} {path : Word}
    (leaf : trie.hasChildren path = false) (origin : Nat) :
    trie.pendingChildren origin path = [] := by
  apply List.eq_nil_iff_forall_not_mem.mpr
  intro waiting member
  obtain ⟨nodeMember, _, extended⟩ := mem_pendingChildren.mp member
  rw [hasChildren_of_mem nodeMember extended] at leaf
  cases leaf

theorem mem_map_pendingChildren {trie : Trie} {origin : Nat}
    {path other : Word} :
    other ∈ (trie.pendingChildren origin path).map (·.node.path) ↔
      other ∈ trie.paths ∧ ∃ symbol, other = path ++ [symbol] := by
  rw [map_pendingChildren, List.mem_filter, Option.isSome_iff_exists]
  simp only [Word.extension?_eq_some_iff]

/-! ## One visit -/

namespace Extraction

section Visit

variable {trie : Trie} {number : Word → Nat} {visited : List Word}
  {pending : List PendingNode} {unused : Nat} {graph : EdgeGraph}

theorem parent_opened
    (search : trie.Extraction number visited pending unused graph)
    {parent : Word} {symbol : String}
    (known : parent ++ [symbol] ∈ visited ++ pending.map (·.node.path)) :
    trie.Opened visited parent := by
  rcases List.mem_append.mp known with old | waits
  · obtain ⟨_, other, _, opened, same⟩ := search.visited_child _ old
    rw [(List.append_singleton_inj.mp same).1]
    exact opened
  · obtain ⟨waiting, member, extended⟩ := List.mem_map.mp waits
    obtain ⟨_, other, opened, _, same⟩ := search.pending_child waiting member
    rw [(List.append_singleton_inj.mp (extended.symm.trans same)).1]
    exact opened

variable {waiting : PendingNode} {later : List PendingNode}

theorem not_visited
    (search : trie.Extraction number visited (waiting :: later) unused graph) :
    waiting.node.path ∉ visited := by
  intro old
  exact (List.nodup_append.mp search.distinct).2.2 _ old _
    List.mem_cons_self rfl

theorem not_opened
    (search : trie.Extraction number visited (waiting :: later) unused
      graph) : ¬ trie.Opened visited waiting.node.path := by
  intro opened
  rcases opened with isRoot | ⟨old, _⟩
  · obtain ⟨_, parent, _, _, extended⟩ :=
      search.pending_child waiting List.mem_cons_self
    rw [extended] at isRoot
    simp [root] at isRoot
  · exact search.not_visited old

/-- The graph shows the visited node as well, when the edges into it were
added. -/
theorem carries_visit (distinct : trie.paths.Nodup)
    (search : trie.Extraction number visited (waiting :: later) unused graph)
    {renumbered : Word → Nat} {extended : EdgeGraph}
    (agree : ∀ path, trie.Opened visited path →
      renumbered path = number path)
    (added : ∀ origin symbol destination,
      extended.Carries origin symbol destination ↔
        (origin = waiting.origin ∧ symbol = waiting.symbol ∧
            trie.LeadsTo renumbered waiting.node destination) ∨
          graph.Carries origin symbol destination)
    (origin : Nat) (symbol : String) (destination : Nat) :
    extended.Carries origin symbol destination ↔
      ∃ parent, ∃ node ∈ trie.nodes,
        node.path ∈ waiting.node.path :: visited ∧
          node.path = parent ++ [symbol] ∧ origin = renumbered parent ∧
            trie.LeadsTo renumbered node destination := by
  obtain ⟨member, above, aboveOpened, isOrigin, child⟩ :=
    search.pending_child waiting List.mem_cons_self
  rw [added, search.carries_iff]
  -- Nodes that were visited before keep their numbers, and so do their parents.
  have same : ∀ {node : TrieNode} {parent : Word},
      node.path ∈ visited → node.path = parent ++ [symbol] →
        renumbered parent = number parent ∧
          (trie.LeadsTo renumbered node destination ↔
            trie.LeadsTo number node destination) := by
    intro node parent old isChild
    have known : parent ++ [symbol] ∈
        visited ++ (waiting :: later).map (·.node.path) := by
      rw [← isChild]
      exact List.mem_append_left _ old
    refine ⟨agree parent (search.parent_opened known), ?_⟩
    · unfold LeadsTo
      apply or_congr_right
      apply and_congr_right
      intro inner
      rw [agree node.path (Or.inr ⟨old, inner⟩)]
  constructor
  · intro carried
    rcases carried with ⟨rfl, rfl, leads⟩ |
      ⟨parent, node, nodeMember, old, isChild, rfl, leads⟩
    · refine ⟨above, waiting.node, member, List.mem_cons_self, child, ?_,
        leads⟩
      rw [agree above aboveOpened]
      exact isOrigin
    · obtain ⟨sameParent, sameLead⟩ := same old isChild
      exact ⟨parent, node, nodeMember, List.mem_cons_of_mem _ old, isChild,
        sameParent.symm, sameLead.mpr leads⟩
  · intro shown
    obtain ⟨parent, node, nodeMember, known, isChild, rfl, leads⟩ := shown
    rcases List.mem_cons.mp known with new | old
    · have isWaiting : node = waiting.node :=
        List.inj_on_of_nodup_map distinct nodeMember member new
      subst isWaiting
      obtain ⟨sameParent, sameSymbol⟩ :=
        List.append_singleton_inj.mp (child.symm.trans isChild)
      refine Or.inl ⟨?_, sameSymbol.symm, leads⟩
      rw [← sameParent, agree above aboveOpened]
      exact isOrigin.symm
    · obtain ⟨sameParent, sameLead⟩ := same old isChild
      exact Or.inr ⟨parent, node, nodeMember, old, isChild, sameParent,
        sameLead.mp leads⟩

/-- Visiting a pending node keeps the invariant.  If the node has children it
is opened, with the number that was unused so far. -/
theorem visit (distinct : trie.paths.Nodup)
    (search : trie.Extraction number visited (waiting :: later) unused graph)
    {renumbered : Word → Nat} {next : Nat} {extended : EdgeGraph}
    (agree : ∀ path, trie.Opened visited path →
      renumbered path = number path)
    (opens : trie.hasChildren waiting.node.path = true →
      renumbered waiting.node.path = unused ∧ unused < next)
    (atLeast : unused ≤ next)
    (added : ∀ origin symbol destination,
      extended.Carries origin symbol destination ↔
        (origin = waiting.origin ∧ symbol = waiting.symbol ∧
            trie.LeadsTo renumbered waiting.node destination) ∨
          graph.Carries origin symbol destination) :
    trie.Extraction renumbered (waiting.node.path :: visited)
      (trie.pendingChildren unused waiting.node.path ++ later) next
      extended := by
  obtain ⟨member, above, aboveOpened, isOrigin, child⟩ :=
    search.pending_child waiting List.mem_cons_self
  have stays : ∀ {path : Word}, trie.Opened visited path →
      trie.Opened (waiting.node.path :: visited) path :=
    fun opened => opened_cons.mpr (Or.inl opened)
  have rearranged : (visited ++
      (waiting :: later).map (·.node.path)).Perm
        (waiting.node.path :: visited ++ later.map (·.node.path)) :=
    List.perm_middle
  have grown : ∀ path,
      trie.Opened (waiting.node.path :: visited) path →
        trie.Opened visited path ∨ path = waiting.node.path ∧
          renumbered waiting.node.path = unused ∧ unused < next := by
    intro path opened
    rcases opened_cons.mp opened with old | ⟨new, inner⟩
    · exact Or.inl old
    · exact Or.inr ⟨new, opens inner⟩
  refine
    { distinct := ?_
      numbering := search.numbering.extend (Or.inl rfl) agree atLeast grown
      visited_child := ?_
      pending_child := ?_
      covered := ?_
      carries_iff := carries_visit distinct search agree added }
  · -- A child of the visited node was neither visited nor pending, because its
    -- parent was not opened before.
    rw [List.map_append]
    apply (List.perm_append_comm_assoc _ _ _).nodup_iff.mpr
    apply List.nodup_append.mpr
    refine ⟨?_, rearranged.nodup_iff.mp search.distinct, ?_⟩
    · rw [map_pendingChildren]
      exact distinct.filter _
    · intro path new other old same
      obtain ⟨_, symbol, rfl⟩ := mem_map_pendingChildren.mp new
      subst same
      exact search.not_opened
        (search.parent_opened (rearranged.mem_iff.mpr old))
  · intro path known
    rcases List.mem_cons.mp known with rfl | old
    · exact ⟨mem_paths_iff.mpr ⟨waiting.node, member, rfl⟩, above,
        waiting.symbol, stays aboveOpened, child⟩
    · obtain ⟨present, parent, symbol, opened, same⟩ :=
        search.visited_child path old
      exact ⟨present, parent, symbol, stays opened, same⟩
  · intro other known
    rcases List.mem_append.mp known with new | old
    · obtain ⟨nodeMember, isNumber, same⟩ := mem_pendingChildren.mp new
      have inner : trie.hasChildren waiting.node.path = true :=
        hasChildren_of_mem nodeMember same
      refine ⟨nodeMember, waiting.node.path,
        opened_cons.mpr (Or.inr ⟨rfl, inner⟩), ?_, same⟩
      rw [isNumber, (opens inner).1]
    · obtain ⟨nodeMember, parent, opened, isNumber, same⟩ :=
        search.pending_child other (List.mem_cons_of_mem _ old)
      refine ⟨nodeMember, parent, stays opened, ?_, same⟩
      rw [agree parent opened]
      exact isNumber
  · intro parent symbol opened present
    rw [List.map_append]
    apply (List.perm_append_comm_assoc _ _ _).mem_iff.mpr
    rcases opened_cons.mp opened with old | ⟨rfl, _⟩
    · exact List.mem_append_right _
        (rearranged.mem_iff.mp (search.covered parent symbol old present))
    · exact List.mem_append_left _
        (mem_map_pendingChildren.mpr ⟨present, symbol, rfl⟩)

end Visit

end Extraction

/-! ## The whole search -/

/-- A trie node that is a node of the graph. -/
def Inner (trie : Trie) (path : Word) : Prop :=
  path = root ∨ trie.hasChildren path = true

/-- The graph is that of the trie under a numbering of its inner nodes. -/
structure Numbered (trie : Trie) (number : Word → Nat) (graph : EdgeGraph) :
    Prop where
  number_root : number root = EdgeGraph.start
  number_ne_sink : ∀ path, trie.Inner path → number path ≠ EdgeGraph.sink
  number_inj : ∀ first second, trie.Inner first → trie.Inner second →
    number first = number second → first = second
  carries_iff : ∀ origin symbol destination,
    graph.Carries origin symbol destination ↔
      ∃ parent, ∃ node ∈ trie.nodes, node.path = parent ++ [symbol] ∧
        origin = number parent ∧ trie.LeadsTo number node destination

namespace Extraction

variable {trie : Trie} {words : List Word} {number : Word → Nat}
  {visited : List Word} {pending : List PendingNode} {unused : Nat}
  {graph : EdgeGraph}

/-- The search starts at the root, which is opened without a visit. -/
theorem start (distinct : trie.paths.Nodup) :
    trie.Extraction (fun _ => EdgeGraph.start) []
      (trie.pendingChildren EdgeGraph.start root) 2 EdgeGraph.empty where
  distinct := by
    rw [List.nil_append, map_pendingChildren]
    exact distinct.filter _
  numbering :=
    { number_root := rfl
      ne_sink := by simp [EdgeGraph.start, EdgeGraph.sink]
      lt := by simp [EdgeGraph.start]
      inj := by simp [Opened]
      sink_lt := by simp [EdgeGraph.sink] }
  visited_child := by simp
  pending_child := by
    intro waiting member
    obtain ⟨nodeMember, isStart, child⟩ := mem_pendingChildren.mp member
    exact ⟨nodeMember, root, Or.inl rfl, isStart, child⟩
  covered := by
    intro parent symbol opened present
    have isRoot : parent = root := by simpa [Opened] using opened
    subst isRoot
    exact mem_map_pendingChildren.mpr ⟨present, symbol, rfl⟩
  carries_iff := by simp [EdgeGraph.not_carries_empty]

/-- When nothing is pending, every node was visited: its parent was, and is
opened because it has a child. -/
theorem all_visited (holds : trie.Holds words)
    (search : trie.Extraction number visited [] unused graph) {path : Word}
    (present : path ∈ trie.paths) : path = root ∨ path ∈ visited := by
  induction path using List.reverseRecOn with
  | nil => exact Or.inl rfl
  | append_singleton parent symbol ih =>
      have inner := hasChildren_iff.mpr ⟨symbol, present⟩
      have opened : trie.Opened visited parent := by
        rcases ih (holds.parent_mem_paths present) with isRoot | old
        · exact Or.inl isRoot
        · exact Or.inr ⟨old, inner⟩
      have known := search.covered parent symbol opened present
      rw [List.map_nil, List.append_nil] at known
      exact Or.inr known

theorem numbered (holds : trie.Holds words)
    (search : trie.Extraction number visited [] unused graph) :
    trie.Numbered number graph := by
  have opened : ∀ {path : Word}, trie.Inner path →
      trie.Opened visited path := by
    intro path inner
    rcases inner with isRoot | inner
    · exact Or.inl isRoot
    · obtain ⟨symbol, present⟩ := hasChildren_iff.mp inner
      rcases search.all_visited holds (holds.parent_mem_paths present) with
        isRoot | old
      · exact Or.inl isRoot
      · exact Or.inr ⟨old, inner⟩
  refine ⟨search.numbering.number_root, ?_, ?_, ?_⟩
  · intro path inner
    exact search.numbering.ne_sink path (opened inner)
  · intro first second firstInner secondInner
    exact search.numbering.inj first second (opened firstInner)
      (opened secondInner)
  · intro origin symbol destination
    rw [search.carries_iff]
    constructor
    · intro shown
      obtain ⟨parent, node, member, _, extended, isOrigin, leads⟩ := shown
      exact ⟨parent, node, member, extended, isOrigin, leads⟩
    · intro shown
      obtain ⟨parent, node, member, extended, isOrigin, leads⟩ := shown
      have present : node.path ∈ trie.paths :=
        mem_paths_iff.mpr ⟨node, member, rfl⟩
      rcases search.all_visited holds present with isRoot | old
      · rw [extended] at isRoot
        simp [root] at isRoot
      · exact ⟨parent, node, member, old, extended, isOrigin, leads⟩

/-- Nothing is visited twice, so at most as many nodes are visited or pending
as there are. -/
theorem length_le (search : trie.Extraction number visited pending unused graph) :
    visited.length + pending.length ≤ trie.paths.length := by
  have included : visited ++ pending.map (·.node.path) ⊆ trie.paths := by
    intro path known
    rcases List.mem_append.mp known with old | waits
    · exact (search.visited_child path old).1
    · obtain ⟨waiting, member, rfl⟩ := List.mem_map.mp waits
      exact mem_paths_iff.mpr
        ⟨waiting.node, (search.pending_child waiting member).1, rfl⟩
  have atMost := (List.subperm_of_subset search.distinct included).length_le
  simpa using atMost

theorem carries_ended {waiting : PendingNode} {origin destination : Nat}
    {symbol : String} :
    EdgeGraph.Carries
        (if waiting.node.isWordEnd then
          graph.add waiting.origin EdgeGraph.sink waiting.symbol
        else graph) origin symbol destination ↔
      (origin = waiting.origin ∧ symbol = waiting.symbol ∧
          waiting.node.isWordEnd = true ∧ destination = EdgeGraph.sink) ∨
        graph.Carries origin symbol destination := by
  cases ends : waiting.node.isWordEnd with
  | false => simp
  | true => simp [EdgeGraph.carries_add]

theorem carries_leaf {waiting : PendingNode} {numbering : Word → Nat}
    (leaf : trie.hasChildren waiting.node.path = false)
    (origin : Nat) (symbol : String) (destination : Nat) :
    EdgeGraph.Carries
        (if waiting.node.isWordEnd then
          graph.add waiting.origin EdgeGraph.sink waiting.symbol
        else graph) origin symbol destination ↔
      (origin = waiting.origin ∧ symbol = waiting.symbol ∧
          trie.LeadsTo numbering waiting.node destination) ∨
        graph.Carries origin symbol destination := by
  rw [carries_ended]
  simp [LeadsTo, leaf]

theorem carries_inner {waiting : PendingNode} {numbering : Word → Nat}
    (inner : trie.hasChildren waiting.node.path = true)
    (numbered : numbering waiting.node.path = unused)
    (origin : Nat) (symbol : String) (destination : Nat) :
    EdgeGraph.Carries
        (EdgeGraph.add
          (if waiting.node.isWordEnd then
            graph.add waiting.origin EdgeGraph.sink waiting.symbol
          else graph) waiting.origin unused waiting.symbol) origin symbol
        destination ↔
      (origin = waiting.origin ∧ symbol = waiting.symbol ∧
          trie.LeadsTo numbering waiting.node destination) ∨
        graph.Carries origin symbol destination := by
  rw [EdgeGraph.carries_add, carries_ended, ← or_assoc]
  apply or_congr_left
  simp only [LeadsTo, inner, numbered, true_and]
  constructor
  · intro either
    rcases either with ⟨isOrigin, isSymbol, isUnused⟩ |
      ⟨isOrigin, isSymbol, ends⟩
    · exact ⟨isOrigin, isSymbol, Or.inr isUnused⟩
    · exact ⟨isOrigin, isSymbol, Or.inl ends⟩
  · intro leads
    obtain ⟨isOrigin, isSymbol, ends | isUnused⟩ := leads
    · exact Or.inr ⟨isOrigin, isSymbol, ends⟩
    · exact Or.inl ⟨isOrigin, isSymbol, isUnused⟩

/-- The search ends with the graph of the trie. -/
theorem extractFrom_numbered (holds : trie.Holds words) {fuel : Nat}
    (search : trie.Extraction number visited pending unused graph)
    (enough : trie.paths.length ≤ fuel + visited.length) :
    ∃ renumbered, trie.Numbered renumbered
      (trie.extractFrom fuel pending unused graph) := by
  induction fuel generalizing number visited pending unused graph with
  | zero =>
      have atMost := search.length_le
      have nothing : pending = [] := by
        apply List.length_eq_zero_iff.mp
        omega
      subst nothing
      exact ⟨number, search.numbered holds⟩
  | succ fuel ih =>
      cases pending with
      | nil => exact ⟨number, search.numbered holds⟩
      | cons waiting later =>
          have progress : trie.paths.length ≤
              fuel + (waiting.node.path :: visited).length := by
            rw [List.length_cons]
            omega
          simp only [extractFrom]
          cases inner : trie.hasChildren waiting.node.path with
          | false =>
              have visit := search.visit holds.distinct (fun _ _ => rfl)
                (fun impossible => absurd (inner.symm.trans impossible)
                  (by decide)) (Nat.le_refl unused) (carries_leaf inner)
              rw [pendingChildren_eq_nil inner, List.nil_append] at visit
              exact ih visit progress
          | true =>
              have agree : ∀ path, trie.Opened visited path →
                  Function.update number waiting.node.path unused path =
                    number path := by
                intro path opened
                apply Function.update_of_ne
                intro same
                exact search.not_opened (same ▸ opened)
              exact ih (search.visit holds.distinct agree
                (fun _ => ⟨Function.update_self _ _ _, Nat.lt_succ_self _⟩)
                (Nat.le_succ unused)
                (carries_inner inner (Function.update_self _ _ _))) progress

end Extraction

theorem Holds.edgeGraph_numbered {trie : Trie} {words : List Word}
    (holds : trie.Holds words) :
    ∃ number, trie.Numbered number trie.edgeGraph := by
  apply (Extraction.start holds.distinct).extractFrom_numbered holds
  rw [paths, List.length_map]
  exact Nat.le_refl _

/-- The search only ever adds symbols to the graph. -/
theorem extractFrom_preserves {kept : EdgeGraph → Prop}
    (add : ∀ graph origin destination symbol, kept graph →
      kept (graph.add origin destination symbol))
    (trie : Trie) {fuel : Nat} {pending : List PendingNode} {unused : Nat}
    {graph : EdgeGraph} (holds : kept graph) :
    kept (trie.extractFrom fuel pending unused graph) := by
  induction fuel generalizing pending unused graph with
  | zero => exact holds
  | succ fuel ih =>
      cases pending with
      | nil => exact holds
      | cons waiting later =>
          have ended : kept
              (if waiting.node.isWordEnd then
                graph.add waiting.origin EdgeGraph.sink waiting.symbol
              else graph) := by
            split
            · exact add _ _ _ _ holds
            · exact holds
          simp only [extractFrom]
          split
          · exact ih (add _ _ _ _ ended)
          · exact ih ended

theorem edgeGraph_labelled (trie : Trie) : trie.edgeGraph.Labelled :=
  extractFrom_preserves (fun _ _ _ _ labelled => labelled.add _ _ _) trie
    fun _ member => absurd member List.not_mem_nil

end Trie

end Recognizer
