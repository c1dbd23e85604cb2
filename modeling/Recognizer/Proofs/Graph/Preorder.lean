import Mathlib.Data.List.Perm.Basic
import Recognizer.Proofs.Graph.DepthFirst

/-!
# Nodes in depth first order

The extraction visits every node but the root once, a node before its children,
and numbers those with children in this order, without gaps.
-/

namespace Recognizer

/-- Two lists of numbers that consist of zero and of what lies below their members
have the same members, where what lies below a number is greater. -/
theorem perm_of_reached {below : Nat → List Nat}
    (forward : ∀ position, ∀ next ∈ below position, position < next)
    {first second : List Nat}
    (reachedFirst : first.Perm (0 :: first.flatMap below))
    (reachedSecond : second.Perm (0 :: second.flatMap below)) :
    first.Perm second := by
  -- How often a number is reached depends on smaller numbers only.
  have depends : ∀ (reached : List Nat) (next : Nat),
      (reached.flatMap below).count next =
        ((reached.filter (· < next)).flatMap below).count next := by
    intro reached next
    induction reached with
    | nil => rfl
    | cons position later ih =>
        rw [List.flatMap_cons, List.count_append, ih, List.filter_cons]
        by_cases smaller : position < next
        · simp [smaller, List.count_append]
        · have nowhere : (below position).count next = 0 :=
            List.count_eq_zero.mpr fun member =>
              smaller (forward position next member)
          simp [smaller, nowhere]
  apply List.perm_iff_count.mpr
  intro next
  induction next using Nat.strongRecOn with
  | ind next ih =>
      have sameBelow : (first.filter (· < next)).Perm
          (second.filter (· < next)) := by
        apply List.perm_iff_count.mpr
        intro smaller
        by_cases isSmaller : smaller < next
        · rw [List.count_filter (by simpa using isSmaller),
            List.count_filter (by simpa using isSmaller)]
          exact ih smaller isSmaller
        · rw [List.count_eq_zero.mpr (by simp [isSmaller]),
            List.count_eq_zero.mpr (by simp [isSmaller])]
      calc
        first.count next = (0 :: first.flatMap below).count next :=
          reachedFirst.count_eq next
        _ = (0 :: second.flatMap below).count next := by
          rw [List.count_cons, List.count_cons, depends first,
            depends second, (sameBelow.flatMap_right below).count_eq]
        _ = second.count next := (reachedSecond.count_eq next).symm

namespace LinkedTrie

variable {trie : LinkedTrie}

/-- What hangs on a node weighs less than the node, also where nothing does. -/
theorem totalWeight_children_lt_weight (trie : LinkedTrie) (position : Nat) :
    trie.totalWeight (trie.children position) < trie.weight position := by
  cases inner : trie.hasChildren position with
  | true =>
      exact Nat.lt_of_succ_lt (totalWeight_children_lt inner)
  | false =>
      rw [children_eq_nil_of_leaf inner]
      exact trie.weight_pos position

/-- The positions below several children, every node before its children. -/
def preorder (trie : LinkedTrie) : List TrieChild → List Nat
  | [] => []
  | child :: later =>
      child.position
        :: (preorder trie (trie.children child.position)
          ++ preorder trie later)
termination_by children => trie.totalWeight children
decreasing_by
  · have lighter := trie.totalWeight_children_lt_weight child.position
    rw [totalWeight]
    omega
  · have positive := trie.weight_pos child.position
    rw [totalWeight]
    omega

theorem preorder_nil : trie.preorder [] = [] := by
  rw [preorder]

theorem preorder_cons (child : TrieChild) (later : List TrieChild) :
    trie.preorder (child :: later) =
      child.position :: (trie.preorder (trie.children child.position)
        ++ trie.preorder later) := by
  rw [preorder]

/-- What is visited are the children and the children of what is visited. -/
theorem preorder_perm_reached (children : List TrieChild) :
    (trie.preorder children).Perm
      (children.map TrieChild.position
        ++ (trie.preorder children).flatMap trie.below) := by
  fun_induction preorder trie children with
  | case1 => exact List.Perm.refl _
  | case2 child later ihBelow ihLater =>
      apply List.perm_iff_count.mpr
      intro position
      have below := ihBelow.count_eq position
      have rest := ihLater.count_eq position
      simp only [List.map_cons, List.flatMap_cons, List.flatMap_append,
        List.cons_append, List.count_cons, List.count_append,
        LinkedTrie.below] at below rest ⊢
      omega

theorem Stores.preorder_perm {path : Trie} (stores : trie.Stores path) :
    (trie.preorder (trie.children root)).Perm
      (List.range' 1 (trie.nodes.length - 1)) := by
  obtain ⟨others, counted⟩ := Nat.exists_eq_succ_of_ne_zero
    (List.length_pos_iff.mpr trie.nonempty).ne'
  have visited : (root :: trie.preorder (trie.children root)).Perm
      (0 :: (root :: trie.preorder (trie.children root)).flatMap
        trie.below) := by
    rw [List.flatMap_cons]
    exact (preorder_perm_reached _).cons root
  have range : List.range trie.nodes.length =
      0 :: List.range' 1 (trie.nodes.length - 1) := by
    rw [counted, List.range_eq_range', List.range'_succ]
    rfl
  have all : (List.range trie.nodes.length).Perm
      (0 :: (List.range trie.nodes.length).flatMap trie.below) := by
    have below := stores.flatMap_below_perm.symm.cons 0
    rwa [← range] at below
  have same := perm_of_reached (fun _ _ member => (lt_of_mem_below member).1)
    visited all
  rw [range] at same
  exact (List.perm_cons 0).mp same

/-! ## The numbers of the nodes with children -/

/-- How many of the nodes below several children have children. -/
def innerBelow (trie : LinkedTrie) (children : List TrieChild) : Nat :=
  (trie.preorder children).countP trie.hasChildren

theorem innerBelow_nil : trie.innerBelow [] = 0 := by
  rw [innerBelow, preorder_nil, List.countP_nil]

theorem innerBelow_inner {child : TrieChild} {later : List TrieChild}
    (inner : trie.hasChildren child.position = true) :
    trie.innerBelow (child :: later) =
      1 + trie.innerBelow (trie.children child.position)
        + trie.innerBelow later := by
  simp only [innerBelow, preorder_cons, List.countP_cons, List.countP_append,
    if_pos inner]
  omega

theorem innerBelow_leaf {child : TrieChild} {later : List TrieChild}
    (leaf : trie.hasChildren child.position = false) :
    trie.innerBelow (child :: later) = trie.innerBelow later := by
  simp [innerBelow, preorder_cons, preorder_nil, leaf,
    children_eq_nil_of_leaf leaf]

theorem openedBy_endLinks (origin : Nat) (child : TrieChild) :
    Link.openedBy (trie.endLinks origin child) = [] := by
  unfold endLinks
  split
  · rfl
  · rfl

/-- The nodes with children get the next unused numbers in the order in which
they are visited. -/
theorem depthFirst_opens (trie : LinkedTrie) (origin unused : Nat)
    (children : List TrieChild) (behind : EdgeGraph.sink < unused) :
    Link.openedBy (trie.depthFirst origin unused children).links =
        List.range' unused (trie.innerBelow children) ∧
      (trie.depthFirst origin unused children).unused =
        unused + trie.innerBelow children := by
  induction children using preorder.induct trie
    generalizing origin unused with
  | case1 =>
      rw [depthFirst_nil, innerBelow_nil]
      exact ⟨rfl, rfl⟩
  | case2 child later ihBelow ihLater =>
      cases inner : trie.hasChildren child.position with
      | true =>
          obtain ⟨openedBelow, unusedBelow⟩ :=
            ihBelow unused (unused + 1) (Nat.lt_succ_of_lt behind)
          obtain ⟨openedLater, unusedLater⟩ := ihLater origin
            (unused + 1 + trie.innerBelow (trie.children child.position))
            (by omega)
          have single : Link.openedBy [⟨origin, unused, child.symbol⟩] =
              [unused] := by
            simp [Link.openedBy, (Nat.ne_of_lt behind).symm]
          rw [depthFirst_inner inner rfl rfl, innerBelow_inner inner,
            unusedBelow]
          constructor
          · rw [← List.singleton_append, Link.openedBy_append, Link.openedBy_append,
              Link.openedBy_append, openedBy_endLinks, single, openedBelow,
              openedLater, List.nil_append, List.append_assoc,
              List.range'_append_1, Nat.add_assoc 1, Nat.add_comm 1,
              List.range'_succ]
            rfl
          · rw [unusedLater]
            omega
      | false =>
          obtain ⟨openedLater, unusedLater⟩ := ihLater origin unused behind
          rw [depthFirst_leaf inner, innerBelow_leaf inner, Link.openedBy_append,
            openedBy_endLinks, List.nil_append]
          exact ⟨openedLater, unusedLater⟩

theorem origin_of_mem_endLinks {origin : Nat} {child : TrieChild} {link : Link}
    (member : link ∈ trie.endLinks origin child) : link.origin = origin := by
  unfold endLinks at member
  split at member
  · rw [List.mem_singleton.mp member]
  · cases member

theorem depthFirst_origins (trie : LinkedTrie) (origin unused : Nat)
    (children : List TrieChild) (behind : EdgeGraph.sink < unused) :
    (trie.depthFirst origin unused children).links.map Link.origin ⊆
      origin :: List.range' unused (trie.innerBelow children) := by
  induction children using preorder.induct trie
    generalizing origin unused with
  | case1 =>
      rw [depthFirst_nil]
      exact List.nil_subset _
  | case2 child later ihBelow ihLater =>
      intro number member
      obtain ⟨link, drawn, rfl⟩ := List.mem_map.mp member
      cases inner : trie.hasChildren child.position with
      | true =>
          have unusedBelow := (trie.depthFirst_opens unused (unused + 1)
            (trie.children child.position) (Nat.lt_succ_of_lt behind)).2
          rw [depthFirst_inner inner rfl rfl, unusedBelow, List.append_assoc,
            List.mem_append, List.cons_append, List.mem_cons,
            List.mem_append] at drawn
          rw [innerBelow_inner inner, List.mem_cons, List.mem_range'_1]
          rcases drawn with ended | rfl | below | rest
          · exact Or.inl (origin_of_mem_endLinks ended)
          · exact Or.inl rfl
          · have opened := ihBelow unused (unused + 1)
              (Nat.lt_succ_of_lt behind)
              (List.mem_map_of_mem (f := Link.origin) below)
            rw [List.mem_cons, List.mem_range'_1] at opened
            omega
          · have opened := ihLater origin
              (unused + 1 + trie.innerBelow (trie.children child.position))
              (by omega) (List.mem_map_of_mem (f := Link.origin) rest)
            rw [List.mem_cons, List.mem_range'_1] at opened
            omega
      | false =>
          rw [depthFirst_leaf inner, List.mem_append] at drawn
          rw [innerBelow_leaf inner]
          rcases drawn with ended | rest
          · rw [origin_of_mem_endLinks ended]
            exact List.mem_cons_self
          · exact ihLater origin unused behind
              (List.mem_map_of_mem (f := Link.origin) rest)

end LinkedTrie

end Recognizer
