import Recognizer.Proofs.Trie.Linked

/-!
# The shape of a stored trie

The nodes of a stored trie form a tree in the order of their creation.  A node that
is created in the middle of a word has no children yet and ends no word, so between
two symbols there may be a leaf that ends nothing.  The rest of the word is inserted
below it, and the last node is marked, so after a whole word no such leaf is left.

The shape is read off the paths: a node stands one symbol behind its parent, and no
two nodes stand at the same path.
-/

namespace Recognizer

namespace LinkedTrie

/-- The nodes form a tree with the root first, and the leaves end words. -/
structure IsTree (trie : LinkedTrie) : Prop where
  /-- Every other node is the child of one node, under one symbol. -/
  parent_unique : ∀ position, position ≠ root →
    position < trie.nodes.length →
    ∃! link : Nat × String, ⟨link.2, position⟩ ∈ trie.children link.1
  parent_lt : ∀ position, ∀ child ∈ trie.children position,
    position < child.position
  child_lt : ∀ position, ∀ child ∈ trie.children position,
    child.position < trie.nodes.length
  symbols_distinct : ∀ position,
    ((trie.children position).map TrieChild.symbol).Nodup
  root_not_end : trie.isWordEnd root = false
  leaf_ends : ∀ position, position ≠ root → position < trie.nodes.length →
    trie.hasChildren position = false → trie.isWordEnd position = true

namespace Stores

variable {linked : LinkedTrie} {trie : Trie}

theorem parent_unique (stores : linked.Stores trie) {position : Nat}
    (notRoot : position ≠ root) (inRange : position < linked.nodes.length) :
    ∃! link : Nat × String,
      (⟨link.2, position⟩ : TrieChild) ∈ linked.children link.1 := by
  obtain ⟨parent, member⟩ := stores.exists_mem_below inRange notRoot
  obtain ⟨path, symbol, stands, extended⟩ := stores.mem_below_iff.mp member
  refine ⟨(parent, symbol),
    stores.mem_children_iff.mpr ⟨path, stands, extended⟩, ?_⟩
  intro link isChild
  obtain ⟨other, standsToo, alsoExtended⟩ := stores.mem_children_iff.mp isChild
  obtain ⟨samePath, sameSymbol⟩ := List.append_inj'
    (Option.some_inj.mp (alsoExtended.symm.trans extended)) rfl
  rw [samePath] at standsToo
  exact Prod.ext (stores.position_unique standsToo stands)
    (List.cons.inj sameSymbol).1

/-- Two children under one symbol would stand at the same path. -/
theorem symbols_nodup (stores : linked.Stores trie) (position : Nat) :
    ((linked.children position).map TrieChild.symbol).Nodup := by
  have distinct : (linked.children position).Nodup :=
    List.Nodup.of_map _ (stores.below_ascending position).nodup
  apply distinct.map_on
  intro first firstMember second secondMember sameSymbol
  obtain ⟨path, stands, isFirst⟩ := stores.mem_children_iff.mp firstMember
  obtain ⟨other, standsToo, isSecond⟩ :=
    stores.mem_children_iff.mp secondMember
  have samePath := Option.some_inj.mp (standsToo.symm.trans stands)
  rw [samePath, ← sameSymbol] at isSecond
  have samePosition := stores.position_unique isFirst isSecond
  cases first
  cases second
  simp only [TrieChild.mk.injEq]
  exact ⟨sameSymbol, samePosition⟩

theorem isWordEnd_iff (stores : linked.Stores trie) {words : List Word}
    (holds : trie.Holds words) {position : Nat} {path : Word}
    (stands : trie.paths[position]? = some path) :
    linked.isWordEnd position = true ↔ path ≠ Trie.root ∧ path ∈ words := by
  rw [Trie.paths, List.getElem?_map] at stands
  obtain ⟨node, found, rfl⟩ := Option.map_eq_some_iff.mp stands
  rw [stores.isWordEnd found]
  exact holds.isWordEnd_iff node (List.mem_of_getElem? found)

theorem isTree (stores : linked.Stores trie) {words : List Word}
    (holds : trie.Holds words) : linked.IsTree where
  parent_unique := fun _ notRoot inRange =>
    stores.parent_unique notRoot inRange
  parent_lt := fun _ _ member => (lt_of_mem_children member).1
  child_lt := fun _ _ member => (lt_of_mem_children member).2
  symbols_distinct := stores.symbols_nodup
  root_not_end := by
    rw [Bool.eq_false_iff]
    intro ends
    exact ((stores.isWordEnd_iff holds stores.first).mp ends).1 rfl
  leaf_ends := by
    intro position notRoot inRange leaf
    rw [stores.length_nodes, ← Trie.length_paths] at inRange
    have stands := List.getElem?_eq_getElem inRange
    have nonempty : trie.paths[position] ≠ Trie.root := by
      intro isRoot
      rw [isRoot] at stands
      exact notRoot (stores.position_unique stands stores.first)
    rw [stores.hasChildren stands] at leaf
    exact (stores.isWordEnd_iff holds stands).mpr ⟨nonempty,
      holds.mem_words_of_leaf (List.getElem_mem inRange) nonempty leaf⟩

end Stores

/-- Whatever words are inserted, in whatever order and however often, the nodes
form a tree whose leaves end words. -/
theorem isTree_ofWords (words : List Word) : (ofWords words).IsTree :=
  (stores_ofWords words).isTree (Trie.holds_ofWords words)

end LinkedTrie

end Recognizer
