import Mathlib.Data.Set.Card
import Recognizer.Proofs.Trie.Linked

/-!
# The contents of a trie

A stored trie contains exactly the non-empty words that were inserted.  Its nodes
are the root and one for each non-empty initial segment of these words, so what is
contained already or is empty, and nothing else, may be inserted without a change.
-/

namespace Recognizer

namespace Trie

theorem mem_and_path_of_node? {trie : Trie} {path : Word} {node : TrieNode}
    (found : trie.node? path = some node) :
    node ∈ trie.nodes ∧ node.path = path := by
  have isPath := List.find?_some found
  exact ⟨List.mem_of_find?_eq_some found, beq_iff_eq.mp isPath⟩

theorem foldl_grow_of_mem {trie : Trie} {paths : List Word}
    (present : ∀ path ∈ paths, path ∈ trie.paths) :
    paths.foldl grow trie = trie := by
  induction paths with
  | nil => rfl
  | cons path later ih =>
      rw [List.foldl_cons, grow_of_mem (present path List.mem_cons_self)]
      exact ih fun other member => present other (List.mem_cons_of_mem _ member)

namespace Holds

variable {trie : Trie} {words : List Word}

theorem node?_path (holds : trie.Holds words) {node : TrieNode}
    (member : node ∈ trie.nodes) : trie.node? node.path = some node := by
  obtain ⟨found, isFound⟩ := Option.isSome_iff_exists.mp
    (isSome_node?_iff.mpr (mem_paths_iff.mpr ⟨node, member, rfl⟩))
  obtain ⟨foundMember, samePath⟩ := mem_and_path_of_node? isFound
  rw [isFound, List.inj_on_of_nodup_map holds.distinct foundMember member
    samePath]

theorem contains_iff (holds : trie.Holds words) {word : Word} :
    trie.contains word = true ↔ word ≠ [] ∧ word ∈ words := by
  simp only [contains, Bool.and_eq_true, decide_eq_true_eq,
    Option.any_eq_true]
  constructor
  · intro contained
    obtain ⟨nonempty, node, found, ends⟩ := contained
    obtain ⟨member, rfl⟩ := mem_and_path_of_node? found
    exact ⟨nonempty, ((holds.isWordEnd_iff node member).mp ends).2⟩
  · intro held
    obtain ⟨nonempty, member⟩ := held
    obtain ⟨node, stands, rfl⟩ :=
      mem_paths_iff.mp (holds.mem_paths_of_mem member nonempty)
    exact ⟨nonempty, node, holds.node?_path stands,
      (holds.isWordEnd_iff node stands).mpr ⟨nonempty, member⟩⟩

/-- Apart from the root there is one node for each non-empty initial segment. -/
theorem length_nodes (holds : trie.Holds words)
    (first : trie.paths[0]? = some root) :
    (trie.nodes.length : ℕ∞) =
      1 + {head : Word | head ≠ [] ∧ ∃ word ∈ words, head <+: word}.encard := by
  obtain ⟨others, paths⟩ : ∃ others, trie.paths = root :: others := by
    cases paths : trie.paths with
    | nil => simp [paths] at first
    | cons path others =>
        rw [paths, List.getElem?_cons_zero] at first
        exact ⟨others, by rw [Option.some_inj.mp first]⟩
  have distinct := holds.distinct
  rw [paths] at distinct
  obtain ⟨rootOnce, distinct⟩ := List.nodup_cons.mp distinct
  have heads : {head : Word | head ≠ [] ∧ ∃ word ∈ words, head <+: word} =
      (others.toFinset : Set Word) := by
    ext head
    have known := holds.mem_paths head
    rw [paths, List.mem_cons] at known
    simp only [Set.mem_ofPred_eq, List.coe_toFinset]
    constructor
    · intro isHead
      obtain ⟨nonempty, word, member, rest⟩ := isHead
      have stands := known.mpr
        (Or.inr ⟨word, member, Word.mem_heads.mpr ⟨nonempty, rest⟩⟩)
      exact stands.resolve_left nonempty
    · intro stands
      have nonempty : head ≠ root := fun isRoot => rootOnce (isRoot ▸ stands)
      obtain ⟨word, member, isHead⟩ :=
        (known.mp (Or.inr stands)).resolve_left nonempty
      exact ⟨nonempty, word, member, (Word.mem_heads.mp isHead).2⟩
  rw [heads, Set.encard_coe_eq_coe_finsetCard,
    List.toFinset_card_of_nodup distinct, ← length_paths, paths,
    List.length_cons]
  push_cast
  exact add_comm _ _

theorem insert_of_mem (holds : trie.Holds words) {word : Word}
    (member : word ∈ words) : trie.insert word = trie := by
  rw [Trie.insert]
  split
  · rfl
  · rename_i nonempty
    rw [foldl_grow_of_mem fun path head =>
      (holds.mem_paths path).mpr (Or.inr ⟨word, member, head⟩)]
    have marked : ∀ node ∈ trie.nodes,
        (if node.path = word then { node with isWordEnd := true }
          else node) = node := by
      intro node stands
      split
      · rename_i isWord
        have ends := (holds.isWordEnd_iff node stands).mpr
          ⟨isWord ▸ nonempty, isWord ▸ member⟩
        rw [← ends]
      · rfl
    exact congrArg Trie.mk
      ((List.map_congr_left marked).trans (List.map_id trie.nodes))

end Holds

end Trie

namespace LinkedTrie

namespace Stores

variable {linked : LinkedTrie} {trie : Trie}

theorem mem_paths_of_append (stores : linked.Stores trie) {path rest : Word}
    (present : path ++ rest ∈ trie.paths) : path ∈ trie.paths := by
  induction rest using List.reverseRecOn with
  | nil =>
      rw [List.append_nil] at present
      exact present
  | append_singleton earlier symbol ih =>
      rw [← List.append_assoc] at present
      exact ih (stores.parent _ symbol present)

/-- From a path, a word leads to where the longer path stands. -/
theorem foldlM_child?_eq_some_iff (stores : linked.Stores trie)
    {position last : Nat} {path : Word}
    (stands : trie.paths[position]? = some path) (word : Word) :
    word.foldlM linked.child? position = some last ↔
      trie.paths[last]? = some (path ++ word) := by
  induction word generalizing position path with
  | nil =>
      rw [List.foldlM_nil, List.append_nil]
      constructor
      · intro stays
        rw [← Option.some_inj.mp stays]
        exact stands
      · intro alsoStands
        exact congrArg some (stores.position_unique stands alsoStands)
  | cons symbol rest ih =>
      rw [List.foldlM_cons, List.append_cons]
      cases found : linked.child? position symbol with
      | some next =>
          exact ih ((stores.child?_eq_some_iff stands).mp found)
      | none =>
          constructor
          · intro impossible
            cases impossible
          · intro longer
            obtain ⟨next, leads⟩ := List.mem_iff_getElem?.mp
              (stores.mem_paths_of_append (List.mem_of_getElem? longer))
            rw [(stores.child?_eq_some_iff stands).mpr leads] at found
            cases found

theorem walk?_eq_some_iff (stores : linked.Stores trie) {word : Word}
    {last : Nat} :
    linked.walk? word = some last ↔ trie.paths[last]? = some word :=
  stores.foldlM_child?_eq_some_iff stores.first word

theorem contains_iff (stores : linked.Stores trie) {words : List Word}
    (holds : trie.Holds words) {word : Word} :
    linked.contains word = true ↔ word ≠ [] ∧ word ∈ words := by
  rw [← holds.contains_iff]
  simp only [LinkedTrie.contains, Trie.contains, Bool.and_eq_true,
    Option.any_eq_true, stores.walk?_eq_some_iff, Trie.paths,
    List.getElem?_map, Option.map_eq_some_iff]
  apply and_congr_right
  intro _
  constructor
  · intro ended
    obtain ⟨last, ⟨node, stands, rfl⟩, ends⟩ := ended
    rw [stores.isWordEnd stands] at ends
    exact ⟨node, holds.node?_path (List.mem_of_getElem? stands), ends⟩
  · intro ended
    obtain ⟨node, found, ends⟩ := ended
    obtain ⟨member, isPath⟩ := Trie.mem_and_path_of_node? found
    obtain ⟨last, stands⟩ := List.mem_iff_getElem?.mp member
    refine ⟨last, ⟨node, stands, isPath⟩, ?_⟩
    rw [stores.isWordEnd stands]
    exact ends

end Stores

/-! ## Inserting what is there -/

theorem ofWords_concat (words : List Word) (word : Word) :
    ofWords (words ++ [word]) = (ofWords words).insert word := by
  simp [ofWords]

theorem contains_ofWords_iff {words : List Word} {word : Word} :
    (ofWords words).contains word = true ↔ word ≠ [] ∧ word ∈ words :=
  (stores_ofWords words).contains_iff (Trie.holds_ofWords words)

theorem Stores.unique {linked other : LinkedTrie} {trie : Trie}
    (stores : linked.Stores trie) (alsoStores : other.Stores trie) :
    linked = other :=
  LinkedTrie.ext (stores.nodes.trans alsoStores.nodes.symm)

theorem insert_eq_self_iff {words : List Word} {word : Word} :
    (ofWords words).insert word = ofWords words ↔
      word = [] ∨ (ofWords words).contains word = true := by
  have stores := stores_ofWords words
  constructor
  · intro unchanged
    by_cases isEmpty : word = []
    · exact Or.inl isEmpty
    · right
      rw [← unchanged, ← ofWords_concat, contains_ofWords_iff]
      exact ⟨isEmpty, List.mem_append_right _ List.mem_cons_self⟩
  · intro either
    rcases either with rfl | contained
    · rfl
    · have held := (contains_ofWords_iff.mp contained).2
      have inserted := stores.insert word
      rw [(Trie.holds_ofWords words).insert_of_mem held] at inserted
      exact inserted.unique stores

/-- A trie contains the non-empty words that were inserted, has a node for the
root and for every non-empty initial segment of them, and is left as it is exactly
by words that are empty or contained. -/
theorem contents_ofWords (words : List Word) :
    (∀ word, (ofWords words).contains word = true ↔
        word ≠ [] ∧ word ∈ words) ∧
      ((ofWords words).nodes.length : ℕ∞) =
        1 + {head : Word |
          head ≠ [] ∧ ∃ word ∈ words, head <+: word}.encard ∧
      ∀ word, (ofWords words).insert word = ofWords words ↔
        word = [] ∨ (ofWords words).contains word = true := by
  have stores := stores_ofWords words
  refine ⟨fun word => contains_ofWords_iff, ?_,
    fun word => insert_eq_self_iff⟩
  rw [stores.length_nodes]
  exact (Trie.holds_ofWords words).length_nodes stores.first

end LinkedTrie

end Recognizer
