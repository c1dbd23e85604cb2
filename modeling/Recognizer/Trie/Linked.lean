import Recognizer.Trie

/-!
# Linked tries

A trie is stored as a list of nodes, the root first, each with the positions of
its children.  A word is followed from the root on, symbol by symbol, and a node
that is missing is appended behind all others.  So links only lead forward, which
every stored trie carries with it.
-/

namespace Recognizer

/-- A stored node: its children in the order of their creation, and whether a
word ends there. -/
structure LinkedNode where
  children : List TrieChild
  isWordEnd : Bool
deriving DecidableEq

namespace LinkedNode

/-- A node as it is created. -/
def leaf : LinkedNode := ⟨[], false⟩

def addChild (node : LinkedNode) (symbol : String) (position : Nat) :
    LinkedNode :=
  { node with children := node.children ++ [⟨symbol, position⟩] }

def endWord (node : LinkedNode) : LinkedNode :=
  { node with isWordEnd := true }

end LinkedNode

/-- Every child comes behind its parent, and is there. -/
def LinksForward (nodes : List LinkedNode) : Prop :=
  ∀ (position : Nat) (node : LinkedNode), nodes[position]? = some node →
    ∀ child ∈ node.children,
      position < child.position ∧ child.position < nodes.length

theorem LinksForward.empty : LinksForward [LinkedNode.leaf] := by
  intro position node found child member
  rw [List.mem_singleton.mp (List.mem_of_getElem? found)] at member
  cases member

theorem LinksForward.link {nodes : List LinkedNode}
    (forward : LinksForward nodes) (parent : Nat) (symbol : String) :
    LinksForward (nodes.modify parent (·.addChild symbol nodes.length)
      ++ [LinkedNode.leaf]) := by
  intro position node found child member
  rw [List.getElem?_append] at found
  simp only [List.length_append, List.length_modify, List.length_singleton]
  split at found
  · rename_i inRange
    rw [List.length_modify] at inRange
    obtain ⟨old, stored, rfl⟩ : ∃ old, nodes[position]? = some old ∧
        (if parent = position then old.addChild symbol nodes.length
          else old) = node := by
      simpa [List.getElem?_modify] using found
    split at member
    · rcases List.mem_append.mp member with before | added
      · have known := forward position old stored child before
        omega
      · rw [List.mem_singleton.mp added]
        exact ⟨inRange, Nat.lt_succ_self _⟩
    · have known := forward position old stored child member
      omega
  · -- The new node has no children.
    rw [List.mem_singleton.mp (List.mem_of_getElem? found)] at member
    cases member

theorem LinksForward.mark {nodes : List LinkedNode}
    (forward : LinksForward nodes) (position : Nat) :
    LinksForward (nodes.modify position LinkedNode.endWord) := by
  intro other node found child member
  obtain ⟨old, stored, rfl⟩ : ∃ old, nodes[other]? = some old ∧
      (if position = other then old.endWord else old) = node := by
    simpa [List.getElem?_modify] using found
  rw [List.length_modify]
  apply forward other old stored child
  split at member
  · exact member
  · exact member

/-- A trie as it is stored. -/
@[ext]
structure LinkedTrie where
  nodes : List LinkedNode
  nonempty : nodes ≠ []
  forward : LinksForward nodes
deriving DecidableEq

namespace LinkedTrie

/-- The position of the root. -/
def root : Nat := 0

def empty : LinkedTrie where
  nodes := [LinkedNode.leaf]
  nonempty := by simp
  forward := LinksForward.empty

variable (trie : LinkedTrie)

/-- The children of the node at a position.  There are none at a position
outside the trie. -/
def children (position : Nat) : List TrieChild :=
  (trie.nodes[position]?.map LinkedNode.children).getD []

def isWordEnd (position : Nat) : Bool :=
  trie.nodes[position]?.any LinkedNode.isWordEnd

def hasChildren (position : Nat) : Bool :=
  !(trie.children position).isEmpty

/-- Where a symbol leads to. -/
def child? (position : Nat) (symbol : String) : Option Nat :=
  ((trie.children position).find? (·.symbol == symbol)).map
    TrieChild.position

/-- Appends a leaf and makes it the last child of a node. -/
def link (parent : Nat) (symbol : String) : LinkedTrie where
  nodes :=
    trie.nodes.modify parent (·.addChild symbol trie.nodes.length)
      ++ [LinkedNode.leaf]
  nonempty := by simp
  forward := trie.forward.link parent symbol

theorem nodes_link (parent : Nat) (symbol : String) :
    (trie.link parent symbol).nodes =
      trie.nodes.modify parent (·.addChild symbol trie.nodes.length)
        ++ [LinkedNode.leaf] :=
  rfl

/-- Marks the end of a word. -/
def mark (position : Nat) : LinkedTrie where
  nodes := trie.nodes.modify position LinkedNode.endWord
  nonempty := by
    intro isNil
    have length := congrArg List.length isNil
    rw [List.length_modify] at length
    exact trie.nonempty (List.length_eq_zero_iff.mp length)
  forward := trie.forward.mark position

theorem nodes_mark (position : Nat) :
    (trie.mark position).nodes =
      trie.nodes.modify position LinkedNode.endWord :=
  rfl

/-- Follows a symbol from a position of a trie, creating the node that it leads
to if there is none. -/
def descend (place : LinkedTrie × Nat) (symbol : String) :
    LinkedTrie × Nat :=
  match place.1.child? place.2 symbol with
  | some position => (place.1, position)
  | none => (place.1.link place.2 symbol, place.1.nodes.length)

/-- Adds a word.  The empty word is ignored. -/
def insert (word : Word) : LinkedTrie :=
  let place := word.foldl descend (trie, root)
  if word = [] then place.1 else place.1.mark place.2

/-- The trie of a list of words, inserted in order. -/
def ofWords (words : List Word) : LinkedTrie :=
  words.foldl insert empty

/-- The position that a word leads to. -/
def walk? (word : Word) : Option Nat :=
  word.foldlM trie.child? root

/-- Whether a word was inserted. -/
def contains (word : Word) : Bool :=
  word ≠ [] && (trie.walk? word).any trie.isWordEnd

/-! ## The children at a position -/

variable {trie}

theorem mem_children_iff {position : Nat} {child : TrieChild} :
    child ∈ trie.children position ↔
      ∃ node, trie.nodes[position]? = some node ∧ child ∈ node.children := by
  cases stored : trie.nodes[position]? <;> simp [children, stored]

theorem lt_of_mem_children {position : Nat} {child : TrieChild}
    (member : child ∈ trie.children position) :
    position < child.position ∧ child.position < trie.nodes.length := by
  obtain ⟨node, stored, member⟩ := mem_children_iff.mp member
  exact trie.forward position node stored child member

theorem hasChildren_iff {position : Nat} :
    trie.hasChildren position = true ↔ trie.children position ≠ [] := by
  simp [hasChildren]

theorem hasChildren_eq {position : Nat} {node : LinkedNode}
    (stored : trie.nodes[position]? = some node) :
    trie.hasChildren position = !node.children.isEmpty := by
  simp [hasChildren, children, stored]

theorem children_eq_nil_of_leaf {position : Nat}
    (leaf : trie.hasChildren position = false) :
    trie.children position = [] := by
  simpa [hasChildren] using leaf

end LinkedTrie

end Recognizer
