import Mathlib.Data.List.Nodup
import Recognizer.Trie

/-!
# What a trie holds

The nodes of a trie are the initial segments of its words, each once, and the
ends of words are marked.  Inserting one word keeps this, so it holds of the
trie of any list of words.  Every node apart from the root has its parent in the
trie, and a node without children ends a word.
-/

namespace Recognizer

namespace Trie

/-- The paths of all nodes. -/
def paths (trie : Trie) : List Word :=
  trie.nodes.map TrieNode.path

/-- The trie is that of the words. -/
structure Holds (trie : Trie) (words : List Word) : Prop where
  distinct : trie.paths.Nodup
  mem_paths : ∀ path, path ∈ trie.paths ↔
    path = root ∨ ∃ word ∈ words, path ∈ word.heads
  isWordEnd_iff : ∀ node ∈ trie.nodes,
    (node.isWordEnd = true ↔ node.path ≠ root ∧ node.path ∈ words)

theorem holds_empty : empty.Holds [] where
  distinct := by simp [paths, empty]
  mem_paths := by simp [paths, empty]
  isWordEnd_iff := by simp [empty]

/-! ## Inserting a word -/

theorem isSome_node?_iff {trie : Trie} {path : Word} :
    (trie.node? path).isSome = true ↔ path ∈ trie.paths := by
  simp [node?, paths]

theorem paths_grow (trie : Trie) (path : Word) :
    (trie.grow path).paths =
      if path ∈ trie.paths then trie.paths else trie.paths ++ [path] := by
  rw [grow]
  by_cases present : path ∈ trie.paths
  · rw [if_pos (isSome_node?_iff.mpr present), if_pos present]
  · rw [if_neg (fun found => present (isSome_node?_iff.mp found)),
      if_neg present]
    simp [paths]

theorem mem_paths_grow {trie : Trie} {path other : Word} :
    other ∈ (trie.grow path).paths ↔ other ∈ trie.paths ∨ other = path := by
  rw [paths_grow]
  split
  · rename_i present
    constructor
    · exact Or.inl
    · intro either
      rcases either with old | rfl
      · exact old
      · exact present
  · simp

theorem nodup_paths_grow {trie : Trie} (distinct : trie.paths.Nodup)
    (path : Word) : (trie.grow path).paths.Nodup := by
  rw [paths_grow]
  split
  · exact distinct
  · rename_i absent
    apply List.nodup_append.mpr
    refine ⟨distinct, List.nodup_singleton path, ?_⟩
    intro old oldMember new newMember same
    rw [List.mem_singleton.mp newMember] at same
    exact absent (same ▸ oldMember)

theorem mem_grow {trie : Trie} {path : Word} {node : TrieNode}
    (member : node ∈ (trie.grow path).nodes) :
    node ∈ trie.nodes ∨ (node.path ∉ trie.paths ∧ node.isWordEnd = false) := by
  rw [grow] at member
  split at member
  · exact Or.inl member
  · rename_i absent
    rcases List.mem_append.mp member with old | new
    · exact Or.inl old
    · rw [List.mem_singleton.mp new]
      exact Or.inr ⟨fun present => absent (isSome_node?_iff.mpr present), rfl⟩

/-- What growing along several paths keeps and adds. -/
structure Grown (trie : Trie) (added : List Word) (grown : Trie) : Prop where
  distinct : grown.paths.Nodup
  mem_paths : ∀ path, path ∈ grown.paths ↔ path ∈ trie.paths ∨ path ∈ added
  mem_nodes : ∀ node ∈ grown.nodes,
    node ∈ trie.nodes ∨ (node.path ∉ trie.paths ∧ node.isWordEnd = false)

theorem grown_foldl {trie : Trie} (distinct : trie.paths.Nodup)
    (added : List Word) : trie.Grown added (added.foldl grow trie) := by
  induction added generalizing trie with
  | nil =>
      exact ⟨distinct, by simp, fun _ member => Or.inl member⟩
  | cons path later ih =>
      have rest := ih (nodup_paths_grow distinct path)
      refine ⟨rest.distinct, ?_, ?_⟩
      · intro other
        rw [List.foldl_cons, rest.mem_paths, mem_paths_grow, List.mem_cons,
          or_assoc]
      · intro node member
        rcases rest.mem_nodes node member with old | ⟨absent, notEnd⟩
        · exact mem_grow old
        · refine Or.inr ⟨?_, notEnd⟩
          exact fun present => absent (mem_paths_grow.mpr (Or.inl present))

theorem paths_mark (trie : Trie) (word : Word) :
    (trie.mark word).paths = trie.paths := by
  simp only [paths, mark, List.map_map]
  apply List.map_congr_left
  intro node _
  simp only [Function.comp_apply]
  split
  · rfl
  · rfl

theorem mem_heads_self {word : Word} (nonempty : word ≠ []) :
    word ∈ word.heads :=
  Word.mem_heads.mpr ⟨nonempty, [], List.append_nil word⟩

theorem Holds.mem_paths_of_mem {trie : Trie} {words : List Word}
    (holds : trie.Holds words) {word : Word} (member : word ∈ words)
    (nonempty : word ≠ []) : word ∈ trie.paths :=
  (holds.mem_paths word).mpr (Or.inr ⟨word, member, mem_heads_self nonempty⟩)

theorem Holds.insert {trie : Trie} {words : List Word}
    (holds : trie.Holds words) (word : Word) :
    (trie.insert word).Holds (words ++ [word]) := by
  rw [Trie.insert]
  by_cases isEmpty : word = []
  · rw [if_pos isEmpty]
    subst isEmpty
    refine ⟨holds.distinct, ?_, ?_⟩
    · intro path
      rw [holds.mem_paths]
      simp [Word.heads]
    · intro node member
      rw [holds.isWordEnd_iff node member]
      simp only [List.mem_append, List.mem_singleton, root]
      constructor
      · intro ends
        exact ⟨ends.1, Or.inl ends.2⟩
      · intro ends
        exact ⟨ends.1, ends.2.resolve_right ends.1⟩
  · rw [if_neg isEmpty]
    have grown := grown_foldl holds.distinct word.heads
    refine ⟨?_, ?_, ?_⟩
    · rw [paths_mark]
      exact grown.distinct
    · intro path
      rw [paths_mark, grown.mem_paths, holds.mem_paths]
      simp only [List.mem_append, List.mem_singleton, or_and_right,
        exists_or, exists_eq_left, or_assoc]
    · intro node member
      obtain ⟨old, oldMember, rfl⟩ := List.mem_map.mp member
      by_cases same : old.path = word
      · rw [if_pos same]
        simp only [same, true_iff, List.mem_append, List.mem_singleton,
          or_true, and_true]
        exact isEmpty
      · rw [if_neg same]
        simp only [List.mem_append, List.mem_singleton, same, or_false]
        rcases grown.mem_nodes old oldMember with present | ⟨absent, notEnd⟩
        · exact holds.isWordEnd_iff old present
        · -- A new node cannot end an earlier word, which has its node already.
          simp only [notEnd, Bool.false_eq_true, false_iff]
          intro held
          exact absent (holds.mem_paths_of_mem held.2 held.1)

/-- The trie of a list of words holds these words. -/
theorem holds_ofWords (words : List Word) : (ofWords words).Holds words := by
  have inserted : ∀ (later : List Word) {trie : Trie} {earlier : List Word},
      trie.Holds earlier →
        (later.foldl Trie.insert trie).Holds (earlier ++ later) := by
    intro later
    induction later with
    | nil =>
        intro trie earlier holds
        rw [List.append_nil]
        exact holds
    | cons word rest ih =>
        intro trie earlier holds
        rw [List.append_cons]
        exact ih (holds.insert word)
  exact inserted words holds_empty

/-! ## Parents and leaves -/

theorem mem_paths_iff {trie : Trie} {path : Word} :
    path ∈ trie.paths ↔ ∃ node ∈ trie.nodes, node.path = path :=
  List.mem_map

theorem hasChildren_iff {trie : Trie} {path : Word} :
    trie.hasChildren path = true ↔
      ∃ symbol, path ++ [symbol] ∈ trie.paths := by
  simp only [hasChildren, List.any_eq_true, Option.isSome_iff_exists,
    Word.extension?_eq_some_iff, mem_paths_iff]
  constructor
  · intro child
    obtain ⟨node, member, symbol, extended⟩ := child
    exact ⟨symbol, node, member, extended⟩
  · intro child
    obtain ⟨symbol, node, member, extended⟩ := child
    exact ⟨node, member, symbol, extended⟩

theorem hasChildren_of_mem {trie : Trie} {node : TrieNode} {path : Word}
    {symbol : String} (member : node ∈ trie.nodes)
    (extended : node.path = path ++ [symbol]) :
    trie.hasChildren path = true :=
  hasChildren_iff.mpr ⟨symbol, mem_paths_iff.mpr ⟨node, member, extended⟩⟩

namespace Holds

variable {trie : Trie} {words : List Word}

/-- The parent of a node is in the trie. -/
theorem parent_mem_paths (holds : trie.Holds words) {path : Word}
    {symbol : String} (present : path ++ [symbol] ∈ trie.paths) :
    path ∈ trie.paths := by
  apply (holds.mem_paths path).mpr
  rcases (holds.mem_paths _).mp present with isRoot | ⟨word, member, head⟩
  · exact absurd isRoot (by simp [root])
  · obtain ⟨_, rest, whole⟩ := Word.mem_heads.mp head
    by_cases isRoot : path = root
    · exact Or.inl isRoot
    · refine Or.inr ⟨word, member, Word.mem_heads.mpr ⟨isRoot, ?_⟩⟩
      exact ⟨symbol :: rest, by rw [← whole, List.append_assoc]; rfl⟩

theorem child_mem_paths (holds : trie.Holds words) {path rest : Word}
    {symbol : String} (held : path ++ symbol :: rest ∈ words) :
    path ++ [symbol] ∈ trie.paths := by
  apply (holds.mem_paths _).mpr
  exact Or.inr ⟨_, held, Word.mem_heads.mpr
    ⟨by simp, rest, (List.append_cons path symbol rest).symm⟩⟩

theorem mem_words_of_leaf (holds : trie.Holds words) {path : Word}
    (present : path ∈ trie.paths) (nonempty : path ≠ root)
    (leaf : trie.hasChildren path = false) : path ∈ words := by
  rcases (holds.mem_paths path).mp present with isRoot | ⟨word, member, head⟩
  · exact absurd isRoot nonempty
  · obtain ⟨_, rest, rfl⟩ := Word.mem_heads.mp head
    cases rest with
    | nil =>
        rw [List.append_nil] at member
        exact member
    | cons symbol later =>
        have child := holds.child_mem_paths member
        rw [hasChildren_iff.mpr ⟨symbol, child⟩] at leaf
        cases leaf

end Holds

end Trie

end Recognizer
