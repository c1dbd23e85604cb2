import Mathlib.Data.List.Induction
import Mathlib.Data.List.Nodup
import Recognizer.Ascending
import Recognizer.Proofs.Trie
import Recognizer.Trie.Linked

/-!
# What a linked trie stores

A linked trie stores a trie whose nodes are known by their paths: at every
position it has the children of the path that stands there.  Following a symbol
is growing the trie by one node, so a word that is inserted in one form is
inserted in the other one.
-/

namespace Recognizer

namespace Trie

/-- The nodes of a trie as they are stored. -/
def stored (trie : Trie) : List LinkedNode :=
  trie.nodes.map fun node => ⟨trie.children node.path, node.isWordEnd⟩

/-! ## Children by their positions -/

theorem length_paths (trie : Trie) : trie.paths.length = trie.nodes.length :=
  List.length_map _

/-- The children are known by the paths alone. -/
theorem children_eq (trie : Trie) (path : Word) :
    trie.children path =
      trie.paths.zipIdx.filterMap fun (other, position) =>
        (path.extension? other).map fun symbol => ⟨symbol, position⟩ := by
  rw [paths, List.zipIdx_map, List.filterMap_map]
  rfl

theorem mem_children_iff {trie : Trie} {path : Word} {child : TrieChild} :
    child ∈ trie.children path ↔
      trie.paths[child.position]? = some (path ++ [child.symbol]) := by
  obtain ⟨symbol, position⟩ := child
  simp only [children_eq, List.mem_filterMap, Option.map_eq_some_iff,
    Word.extension?_eq_some_iff, TrieChild.mk.injEq, Prod.exists,
    List.mk_mem_zipIdx_iff_getElem?]
  constructor
  · intro child
    obtain ⟨_, _, stands, _, rfl, rfl, rfl⟩ := child
    exact stands
  · intro stands
    exact ⟨_, position, stands, symbol, rfl, rfl, rfl⟩

theorem children_eq_nil {trie : Trie} {path : Word}
    (leaf : ∀ symbol, path ++ [symbol] ∉ trie.paths) :
    trie.children path = [] :=
  List.eq_nil_iff_forall_not_mem.mpr fun child member =>
    leaf child.symbol (List.mem_of_getElem? (mem_children_iff.mp member))

theorem children_mark (trie : Trie) (word path : Word) :
    (trie.mark word).children path = trie.children path := by
  rw [children_eq, children_eq, paths_mark]

theorem grow_of_mem {trie : Trie} {path : Word} (present : path ∈ trie.paths) :
    trie.grow path = trie := by
  rw [grow, if_pos (isSome_node?_iff.mpr present)]

theorem nodes_grow_of_not_mem {trie : Trie} {path : Word}
    (absent : path ∉ trie.paths) :
    (trie.grow path).nodes = trie.nodes ++ [⟨path, false⟩] := by
  rw [grow, if_neg fun found => absent (isSome_node?_iff.mp found)]

theorem children_grow_of_not_mem {trie : Trie} {path other : Word}
    {symbol : String} (absent : path ++ [symbol] ∉ trie.paths) :
    (trie.grow (path ++ [symbol])).children other =
      if other = path then
        trie.children other ++ [⟨symbol, trie.nodes.length⟩]
      else trie.children other := by
  rw [children_eq, paths_grow, if_neg absent, List.zipIdx_append,
    List.filterMap_append, ← children_eq, length_paths]
  split
  · rename_i same
    rw [same]
    have extended : path.extension? (path ++ [symbol]) = some symbol :=
      Word.extension?_eq_some_iff.mpr rfl
    simp [extended]
  · rename_i different
    have unrelated : other.extension? (path ++ [symbol]) = none := by
      apply Option.eq_none_iff_forall_ne_some.mpr
      intro _ extended
      have same := Word.extension?_eq_some_iff.mp extended
      exact different (List.append_inj_left' same rfl).symm
    simp [unrelated]

end Trie

namespace LinkedTrie

/-- The positions of the children of a node. -/
def below (trie : LinkedTrie) (position : Nat) : List Nat :=
  (trie.children position).map TrieChild.position

theorem lt_of_mem_below {trie : LinkedTrie} {position next : Nat}
    (member : next ∈ trie.below position) :
    position < next ∧ next < trie.nodes.length := by
  obtain ⟨child, isChild, rfl⟩ := List.mem_map.mp member
  exact lt_of_mem_children isChild

/-- A linked trie stores a trie, which begins with the root and has the parents
of its nodes. -/
structure Stores (linked : LinkedTrie) (trie : Trie) : Prop where
  nodes : linked.nodes = trie.stored
  distinct : trie.paths.Nodup
  first : trie.paths[0]? = some Trie.root
  parent : ∀ path symbol, path ++ [symbol] ∈ trie.paths → path ∈ trie.paths

theorem stores_empty : empty.Stores Trie.empty where
  nodes := by decide
  distinct := by decide
  first := by decide
  parent := by simp [Trie.paths, Trie.empty, Trie.root]

namespace Stores

variable {linked : LinkedTrie} {trie : Trie}

theorem length_nodes (stores : linked.Stores trie) :
    linked.nodes.length = trie.nodes.length := by
  rw [stores.nodes, Trie.stored, List.length_map]

theorem children (stores : linked.Stores trie) {position : Nat} {path : Word}
    (stands : trie.paths[position]? = some path) :
    linked.children position = trie.children path := by
  rw [Trie.paths, List.getElem?_map] at stands
  obtain ⟨node, found, rfl⟩ := Option.map_eq_some_iff.mp stands
  simp [LinkedTrie.children, stores.nodes, Trie.stored, found]

theorem isWordEnd (stores : linked.Stores trie) {position : Nat}
    {node : TrieNode} (stands : trie.nodes[position]? = some node) :
    linked.isWordEnd position = node.isWordEnd := by
  simp [LinkedTrie.isWordEnd, stores.nodes, Trie.stored, stands]

theorem hasChildren (stores : linked.Stores trie) {position : Nat} {path : Word}
    (stands : trie.paths[position]? = some path) :
    linked.hasChildren position = trie.hasChildren path := by
  rw [Bool.eq_iff_iff, LinkedTrie.hasChildren_iff, stores.children stands,
    Trie.hasChildren_iff]
  constructor
  · intro some
    obtain ⟨child, member⟩ := List.exists_mem_of_ne_nil _ some
    exact ⟨child.symbol,
      List.mem_of_getElem? (Trie.mem_children_iff.mp member)⟩
  · intro child
    obtain ⟨symbol, present⟩ := child
    obtain ⟨position, extended⟩ := List.mem_iff_getElem?.mp present
    exact List.ne_nil_of_mem
      (Trie.mem_children_iff.mpr extended : ⟨symbol, position⟩ ∈ _)

theorem position_unique (stores : linked.Stores trie) {first second : Nat}
    {path : Word} (stands : trie.paths[first]? = some path)
    (alsoStands : trie.paths[second]? = some path) : first = second := by
  have inRange := (List.getElem?_eq_some_iff.mp stands).1
  exact (List.getElem?_inj inRange stores.distinct).mp
    (stands.trans alsoStands.symm)

theorem eq_iff_of_stands (stores : linked.Stores trie) {position other : Nat}
    {path : Word} {node : TrieNode}
    (stands : trie.paths[position]? = some path)
    (found : trie.nodes[other]? = some node) :
    position = other ↔ node.path = path := by
  have alsoStands : trie.paths[other]? = some node.path := by
    rw [Trie.paths, List.getElem?_map, found, Option.map_some]
  constructor
  · rintro rfl
    exact Option.some_inj.mp (alsoStands.symm.trans stands)
  · rintro rfl
    exact stores.position_unique stands alsoStands

theorem child?_eq_some_iff (stores : linked.Stores trie)
    {position next : Nat} {path : Word} {symbol : String}
    (stands : trie.paths[position]? = some path) :
    linked.child? position symbol = some next ↔
      trie.paths[next]? = some (path ++ [symbol]) := by
  rw [child?, stores.children stands, Option.map_eq_some_iff]
  constructor
  · intro found
    obtain ⟨child, found, rfl⟩ := found
    have carries := List.find?_some found
    rw [← beq_iff_eq.mp carries]
    exact Trie.mem_children_iff.mp (List.mem_of_find?_eq_some found)
  · intro leads
    have member : ⟨symbol, next⟩ ∈ trie.children path :=
      Trie.mem_children_iff.mpr leads
    obtain ⟨child, found⟩ := Option.isSome_iff_exists.mp
      (List.find?_isSome (p := (·.symbol == symbol)) |>.mpr
        ⟨_, member, beq_self_eq_true symbol⟩)
    have carries := List.find?_some found
    have leadsToo := Trie.mem_children_iff.mp (List.mem_of_find?_eq_some found)
    rw [beq_iff_eq.mp carries] at leadsToo
    exact ⟨child, found, stores.position_unique leadsToo leads⟩

/-! ## Inserting a word -/

theorem link (stores : linked.Stores trie) {position : Nat} {path : Word}
    (stands : trie.paths[position]? = some path) {symbol : String}
    (absent : path ++ [symbol] ∉ trie.paths) :
    (linked.link position symbol).Stores (trie.grow (path ++ [symbol])) where
  nodes := by
    have leaf : (trie.grow (path ++ [symbol])).children (path ++ [symbol]) =
        [] := by
      rw [Trie.children_grow_of_not_mem absent, if_neg (by simp)]
      apply Trie.children_eq_nil
      exact fun other child => absent (stores.parent _ other child)
    -- At the old positions only the parent differs.
    rw [nodes_link, Trie.stored, Trie.nodes_grow_of_not_mem absent,
      List.map_append, List.map_singleton, leaf, stores.length_nodes,
      stores.nodes, Trie.stored]
    congr 1
    apply List.ext_getElem?
    intro other
    rw [List.getElem?_modify, List.getElem?_map, List.getElem?_map]
    cases found : trie.nodes[other]? with
    | none => rfl
    | some node =>
        simp only [Option.map_some, Option.map_eq_map,
          Trie.children_grow_of_not_mem absent,
          stores.eq_iff_of_stands stands found]
        split
        · rfl
        · rfl
  distinct := Trie.nodup_paths_grow stores.distinct _
  first := by
    rw [Trie.paths_grow, if_neg absent]
    have inRange := (List.getElem?_eq_some_iff.mp stores.first).1
    rw [List.getElem?_append_left inRange]
    exact stores.first
  parent := by
    intro other last child
    apply Trie.mem_paths_grow.mpr
    rcases Trie.mem_paths_grow.mp child with old | new
    · exact Or.inl (stores.parent other last old)
    · rw [List.append_inj_left' new rfl]
      exact Or.inl (List.mem_of_getElem? stands)

/-- Following a symbol grows the trie by the node that it leads to. -/
theorem descend (stores : linked.Stores trie) {position : Nat} {path : Word}
    (stands : trie.paths[position]? = some path) (symbol : String) :
    (LinkedTrie.descend (linked, position) symbol).1.Stores
        (trie.grow (path ++ [symbol])) ∧
      (trie.grow (path ++ [symbol])).paths[
          (LinkedTrie.descend (linked, position) symbol).2]? =
        some (path ++ [symbol]) := by
  cases found : linked.child? position symbol with
  | some next =>
      have leads := (stores.child?_eq_some_iff stands).mp found
      rw [Trie.grow_of_mem (List.mem_of_getElem? leads)]
      simp only [LinkedTrie.descend, found]
      exact ⟨stores, leads⟩
  | none =>
      have absent : path ++ [symbol] ∉ trie.paths := by
        intro present
        obtain ⟨next, leads⟩ := List.mem_iff_getElem?.mp present
        rw [(stores.child?_eq_some_iff stands).mpr leads] at found
        cases found
      simp only [LinkedTrie.descend, found]
      refine ⟨stores.link stands absent, ?_⟩
      rw [Trie.paths_grow, if_neg absent, stores.length_nodes,
        ← Trie.length_paths]
      exact List.getElem?_concat_length

/-- Following a word grows the trie along its initial segments, and ends where the
word stands. -/
theorem descend_foldl (stores : linked.Stores trie) {position : Nat}
    {path : Word} (stands : trie.paths[position]? = some path) (word : Word) :
    (word.foldl LinkedTrie.descend (linked, position)).1.Stores
        ((word.heads.map (path ++ ·)).foldl Trie.grow trie) ∧
      ((word.heads.map (path ++ ·)).foldl Trie.grow trie).paths[
          (word.foldl LinkedTrie.descend (linked, position)).2]? =
        some (path ++ word) := by
  induction word generalizing linked trie position path with
  | nil =>
      rw [List.append_nil]
      exact ⟨stores, stands⟩
  | cons symbol rest ih =>
      obtain ⟨storesNext, standsNext⟩ := stores.descend stands symbol
      have followed := ih storesNext standsNext
      simpa [Word.heads, Function.comp_def] using followed

theorem mark (stores : linked.Stores trie) {position : Nat} {path : Word}
    (stands : trie.paths[position]? = some path) :
    (linked.mark position).Stores (trie.mark path) where
  nodes := by
    rw [nodes_mark, stores.nodes, Trie.stored, Trie.stored]
    apply List.ext_getElem?
    intro other
    rw [List.getElem?_modify, List.getElem?_map, List.getElem?_map]
    have marked : (trie.mark path).nodes[other]? = trie.nodes[other]?.map
        fun node => if node.path = path then { node with isWordEnd := true }
          else node := List.getElem?_map
    cases found : trie.nodes[other]? with
    | none => simp [marked, found]
    | some node =>
        simp only [marked, found, Option.map_some, Option.map_eq_map,
          Trie.children_mark, stores.eq_iff_of_stands stands found]
        split
        · rfl
        · rfl
  distinct := by
    rw [Trie.paths_mark]
    exact stores.distinct
  first := by
    rw [Trie.paths_mark]
    exact stores.first
  parent := by
    rw [Trie.paths_mark]
    exact stores.parent

theorem insert (stores : linked.Stores trie) (word : Word) :
    (linked.insert word).Stores (trie.insert word) := by
  have followed := stores.descend_foldl stores.first word
  simp only [Trie.root, List.nil_append, List.map_id'] at followed
  rw [LinkedTrie.insert, Trie.insert]
  split
  · rename_i isEmpty
    subst isEmpty
    exact stores
  · exact followed.1.mark followed.2

/-! ## Every node but the root is the child of one node -/

theorem mem_children_iff (stores : linked.Stores trie) {position : Nat}
    {child : TrieChild} :
    child ∈ linked.children position ↔
      ∃ path, trie.paths[position]? = some path ∧
        trie.paths[child.position]? = some (path ++ [child.symbol]) := by
  constructor
  · intro member
    obtain ⟨path, stands⟩ : ∃ path, trie.paths[position]? = some path := by
      have later := lt_of_mem_children member
      have inRange : position < trie.paths.length := by
        rw [Trie.length_paths, ← stores.length_nodes]
        omega
      exact ⟨_, List.getElem?_eq_getElem inRange⟩
    rw [stores.children stands] at member
    exact ⟨path, stands, Trie.mem_children_iff.mp member⟩
  · intro stand
    obtain ⟨path, stands, extended⟩ := stand
    rw [stores.children stands]
    exact Trie.mem_children_iff.mpr extended

theorem mem_below_iff (stores : linked.Stores trie) {position next : Nat} :
    next ∈ linked.below position ↔
      ∃ path symbol, trie.paths[position]? = some path ∧
        trie.paths[next]? = some (path ++ [symbol]) := by
  constructor
  · intro member
    obtain ⟨child, isChild, rfl⟩ := List.mem_map.mp member
    obtain ⟨path, stands, extended⟩ := stores.mem_children_iff.mp isChild
    exact ⟨path, child.symbol, stands, extended⟩
  · intro child
    obtain ⟨path, symbol, stands, extended⟩ := child
    exact List.mem_map.mpr ⟨⟨symbol, next⟩,
      stores.mem_children_iff.mpr ⟨path, stands, extended⟩, rfl⟩

theorem below_ascending (stores : linked.Stores trie) (position : Nat) :
    StrictlyAscending (linked.below position) := by
  cases stands : trie.paths[position]? with
  | none =>
      have nothing : linked.below position = [] := by
        apply List.eq_nil_iff_forall_not_mem.mpr
        intro next member
        obtain ⟨path, _, standsToo, _⟩ := stores.mem_below_iff.mp member
        rw [stands] at standsToo
        cases standsToo
      rw [nothing]
      exact List.Pairwise.nil
  | some path =>
      have ordered : trie.paths.zipIdx.Pairwise (·.2 < ·.2) := by
        rw [← List.pairwise_map, List.zipIdx_map_snd]
        exact List.pairwise_lt_range'
      rw [below, stores.children stands, Trie.children_eq, StrictlyAscending,
        List.pairwise_map, List.pairwise_filterMap]
      apply ordered.imp
      intro first second earlier firstChild isFirst secondChild isSecond
      obtain ⟨_, _, rfl⟩ := Option.map_eq_some_iff.mp isFirst
      obtain ⟨_, _, rfl⟩ := Option.map_eq_some_iff.mp isSecond
      exact earlier

/-- Two nodes have no child in common. -/
theorem below_disjoint (stores : linked.Stores trie) {first second next : Nat}
    (ofFirst : next ∈ linked.below first)
    (ofSecond : next ∈ linked.below second) : first = second := by
  obtain ⟨path, symbol, stands, child⟩ := stores.mem_below_iff.mp ofFirst
  obtain ⟨other, last, standsToo, childToo⟩ := stores.mem_below_iff.mp ofSecond
  have samePath := List.append_inj_left'
    (Option.some_inj.mp (child.symm.trans childToo)) rfl
  exact stores.position_unique stands (samePath ▸ standsToo)

theorem exists_mem_below (stores : linked.Stores trie) {next : Nat}
    (inRange : next < linked.nodes.length) (notRoot : next ≠ root) :
    ∃ position, next ∈ linked.below position := by
  rw [stores.length_nodes, ← Trie.length_paths] at inRange
  have stands := List.getElem?_eq_getElem inRange
  rcases List.eq_nil_or_concat' trie.paths[next] with isRoot |
    ⟨path, symbol, extended⟩
  · rw [isRoot] at stands
    exact absurd (stores.position_unique stands stores.first) notRoot
  · rw [extended] at stands
    obtain ⟨position, standsAbove⟩ := List.mem_iff_getElem?.mp
      (stores.parent path symbol (List.mem_of_getElem? stands))
    exact ⟨position,
      stores.mem_below_iff.mpr ⟨path, symbol, standsAbove, stands⟩⟩

theorem flatMap_below_perm (stores : linked.Stores trie) :
    ((List.range linked.nodes.length).flatMap linked.below).Perm
      (List.range' 1 (linked.nodes.length - 1)) := by
  have distinct : ((List.range linked.nodes.length).flatMap
      linked.below).Nodup := by
    refine List.nodup_flatMap.mpr
      ⟨fun position _ => (stores.below_ascending position).nodup, ?_⟩
    apply List.nodup_range.pairwise_of_forall_ne
    intro first _ second _ different
    apply List.disjoint_left.mpr
    intro next ofFirst ofSecond
    exact different (stores.below_disjoint ofFirst ofSecond)
  refine (List.perm_ext_iff_of_nodup distinct List.nodup_range').mpr ?_
  intro next
  simp only [List.mem_flatMap, List.mem_range, List.mem_range'_1]
  constructor
  · intro child
    obtain ⟨position, _, member⟩ := child
    have later := lt_of_mem_below member
    omega
  · intro inRange
    obtain ⟨position, member⟩ :=
      stores.exists_mem_below (by omega : next < linked.nodes.length)
        (Nat.ne_of_gt inRange.1)
    have later := lt_of_mem_below member
    exact ⟨position, by omega, member⟩

end Stores

/-- The linked trie of a list of words stores the trie of these words. -/
theorem stores_ofWords (words : List Word) :
    (ofWords words).Stores (Trie.ofWords words) := by
  induction words using List.reverseRecOn with
  | nil => exact stores_empty
  | append_singleton earlier word ih =>
      simp only [ofWords, Trie.ofWords, List.foldl_concat]
      exact ih.insert word

end LinkedTrie

end Recognizer
