import Recognizer.Word

/-!
# Tries

A trie holds a finite set of words by their initial segments.  Its nodes are
listed in the order of their creation, the root first, and every node is known
by its path, the word that leads to it.  The parent of a node, its children and
the symbols on the way are read off the paths.
-/

namespace Recognizer

namespace Word

/-- The non-empty initial segments of a word, shortest first. -/
def heads : Word → List Word
  | [] => []
  | symbol :: rest => [symbol] :: (heads rest).map (symbol :: ·)

/-- The symbol that extends the first word to the second one. -/
def extension? : Word → Word → Option String
  | [], [symbol] => some symbol
  | parent :: parents, child :: children =>
      if parent = child then extension? parents children else none
  | _, _ => none

theorem extension?_eq_some_iff {parent path : Word} {symbol : String} :
    extension? parent path = some symbol ↔ path = parent ++ [symbol] := by
  fun_induction extension? parent path with
  | case1 symbol' => simp
  | case2 head parents children ih => simpa using ih
  | case3 head parents other children different =>
      constructor
      · intro impossible
        cases impossible
      · intro equality
        simp only [List.cons_append, List.cons.injEq] at equality
        exact absurd equality.1.symm different
  | case4 parent path notSingle notBoth =>
      constructor
      · intro impossible
        cases impossible
      · intro equality
        subst equality
        cases parent with
        | nil => exact absurd rfl (notSingle symbol rfl)
        | cons head tail => exact absurd rfl (notBoth head tail head _ rfl)

theorem mem_heads {head word : Word} :
    head ∈ heads word ↔ head ≠ [] ∧ ∃ rest, head ++ rest = word := by
  induction word generalizing head with
  | nil =>
      simp only [heads, List.not_mem_nil, List.append_eq_nil_iff, false_iff]
      rintro ⟨nonempty, rest, isNil, _⟩
      exact nonempty isNil
  | cons symbol tail ih =>
      simp only [heads, List.mem_cons, List.mem_map]
      constructor
      · rintro (single | ⟨shorter, member, extended⟩)
        · exact ⟨by simp [single], tail, by simp [single]⟩
        · obtain ⟨_, rest, whole⟩ := ih.mp member
          exact ⟨by simp [← extended], rest, by simp [← extended, whole]⟩
      · rintro ⟨nonempty, rest, whole⟩
        cases head with
        | nil => exact absurd rfl nonempty
        | cons first others =>
            simp only [List.cons_append, List.cons.injEq] at whole
            obtain ⟨sameSymbol, sameTail⟩ := whole
            subst sameSymbol
            cases others with
            | nil => exact Or.inl rfl
            | cons second later =>
                exact Or.inr ⟨second :: later,
                  ih.mpr ⟨by simp, rest, sameTail⟩, rfl⟩

end Word

/-- A node of a trie: the word that leads to it, and whether a word of the set
ends there. -/
structure TrieNode where
  path : Word
  isWordEnd : Bool
deriving DecidableEq

/-- A trie, its nodes in the order of their creation. -/
structure Trie where
  nodes : List TrieNode
deriving DecidableEq

/-- A child of a node: the symbol that leads there and its position among all
nodes. -/
structure TrieChild where
  symbol : String
  position : Nat
deriving DecidableEq

namespace Trie

def root : Word := []

def empty : Trie :=
  ⟨[⟨root, false⟩]⟩

/-- The node at the end of a path. -/
def node? (trie : Trie) (path : Word) : Option TrieNode :=
  trie.nodes.find? (·.path == path)

/-- Creates the node at the end of a path, if there is none. -/
def grow (trie : Trie) (path : Word) : Trie :=
  if (trie.node? path).isSome then trie
  else ⟨trie.nodes ++ [⟨path, false⟩]⟩

/-- Marks the end of a word. -/
def mark (trie : Trie) (word : Word) : Trie :=
  ⟨trie.nodes.map fun node =>
    if node.path = word then { node with isWordEnd := true } else node⟩

/-- Adds a word, creating nodes for those of its initial segments that have
none.  The empty word is ignored. -/
def insert (trie : Trie) (word : Word) : Trie :=
  if word = [] then trie
  else (word.heads.foldl grow trie).mark word

/-- The trie of a list of words, inserted in order. -/
def ofWords (words : List Word) : Trie :=
  words.foldl insert empty

/-- Whether a word was inserted. -/
def contains (trie : Trie) (word : Word) : Bool :=
  word ≠ [] && (trie.node? word).any (·.isWordEnd)

/-- The nodes one symbol away from the end of a path, in the order of their
creation. -/
def childNodes (trie : Trie) (path : Word) : List TrieNode :=
  trie.nodes.filter fun node => (path.extension? node.path).isSome

/-- The children at the end of a path, in the order of their creation. -/
def children (trie : Trie) (path : Word) : List TrieChild :=
  trie.nodes.zipIdx.filterMap fun (node, position) =>
    (path.extension? node.path).map fun symbol => ⟨symbol, position⟩

def hasChildren (trie : Trie) (path : Word) : Bool :=
  trie.nodes.any fun node => (path.extension? node.path).isSome

end Trie

end Recognizer
