import Mathlib.Data.Set.Card
import Mathlib.Logic.Relation
import Recognizer.Graph.Potency

/-!
# The number of simple paths

The count goes from one path to the next, so at any moment it has found some of
the simple paths and will find others: those that go on from a node of the current
path by an entry that was not tried there.  A move passes paths from the second
kind to the first and loses none, since what is entered avoids exactly the marked
nodes.  At the end nothing is left to try.
-/

namespace Recognizer

namespace SuccessorTable

variable {table : SuccessorTable} {target : Nat}

/-- An entry of the successors of a node leads to the next one. -/
def Leads (table : SuccessorTable) (node entry next : Nat) : Prop :=
  ∃ successors, table[node]? = some successors ∧
    successors[entry]? = some next

/-- Entries that are followed one after the other, with all nodes on the way. -/
inductive Walk (table : SuccessorTable) : Nat → List Nat → List Nat → Prop where
  | stay (node : Nat) : Walk table node [] [node]
  | follow {node entry next : Nat} {entries nodes : List Nat} :
      table.Leads node entry next → Walk table next entries nodes →
      Walk table node (entry :: entries) (node :: nodes)

/-- The entries of a walk from the source to the target that visits no node
twice.  They are positions, so repeated successors give different walks. -/
def SimpleWalk (table : SuccessorTable) (source target : Nat)
    (entries : List Nat) : Prop :=
  ∃ nodes, table.Walk source entries nodes ∧
    nodes.getLast? = some target ∧ nodes.Nodup

/-- The entries of a simple walk to the target that avoids the nodes visited
before. -/
def Onward (table : SuccessorTable) (target : Nat) (visited : List Nat)
    (node : Nat) (entries : List Nat) : Prop :=
  ∃ nodes, table.Walk node entries (node :: nodes) ∧
    (node :: nodes).getLast? = some target ∧ nodes.Nodup ∧
      ∀ other ∈ nodes, other ∉ visited

theorem Leads.unique {node entry next other : Nat}
    (leads : table.Leads node entry next)
    (otherLeads : table.Leads node entry other) : next = other := by
  obtain ⟨successors, listed, found⟩ := leads
  obtain ⟨others, otherListed, otherFound⟩ := otherLeads
  cases listed.symm.trans otherListed
  exact Option.some.inj (found.symm.trans otherFound)

/-- The entries determine the nodes. -/
theorem Walk.nodes_unique {node : Nat} {entries nodes others : List Nat}
    (walk : table.Walk node entries nodes)
    (other : table.Walk node entries others) : nodes = others := by
  induction walk generalizing others with
  | stay =>
      cases other
      rfl
  | follow leads _ ih =>
      cases other with
      | follow otherLeads rest =>
          cases leads.unique otherLeads
          rw [ih rest]

theorem Walk.exists_cons {node : Nat} {entries nodes : List Nat}
    (walk : table.Walk node entries nodes) :
    ∃ later, nodes = node :: later := by
  cases walk with
  | stay => exact ⟨[], rfl⟩
  | follow _ _ => exact ⟨_, rfl⟩

theorem Walk.length_eq {node : Nat} {entries nodes : List Nat}
    (walk : table.Walk node entries nodes) :
    nodes.length = entries.length + 1 := by
  induction walk with
  | stay => rfl
  | follow _ _ ih => simp [ih]

/-- A simple walk avoids its source from then on. -/
theorem simpleWalk_iff_onward {source : Nat} {entries : List Nat} :
    table.SimpleWalk source target entries ↔
      table.Onward target [source] source entries := by
  constructor
  · intro simple
    obtain ⟨nodes, walk, ends, distinct⟩ := simple
    obtain ⟨later, rfl⟩ := walk.exists_cons
    obtain ⟨fresh, laterDistinct⟩ := List.nodup_cons.mp distinct
    refine ⟨later, walk, ends, laterDistinct, fun other member same => ?_⟩
    rw [List.mem_singleton.mp same] at member
    exact fresh member
  · intro onward
    obtain ⟨later, walk, ends, distinct, fresh⟩ := onward
    refine ⟨source :: later, walk, ends, List.nodup_cons.mpr ⟨?_, distinct⟩⟩
    exact fun member => fresh source member (List.mem_singleton.mpr rfl)

theorem not_onward_nil {visited : List Nat} {node : Nat}
    (notTarget : node ≠ target) : ¬ table.Onward target visited node [] := by
  intro onward
  obtain ⟨nodes, walk, ends, _⟩ := onward
  cases walk
  exact notTarget (by simpa using ends)

/-- A walk goes on through the target only to end there, and through any other
node only if that is new. -/
theorem onward_cons_iff {visited : List Nat} {node entry : Nat}
    {entries : List Nat} (notVisited : target ∉ visited) :
    table.Onward target visited node (entry :: entries) ↔
      ∃ next, table.Leads node entry next ∧
        (next = target ∧ entries = [] ∨
          next ≠ target ∧ next ∉ visited ∧
            table.Onward target (next :: visited) next entries) := by
  constructor
  · intro onward
    obtain ⟨nodes, walk, ends, distinct, fresh⟩ := onward
    cases walk with
    | @follow _ _ next _ _ leads rest =>
        obtain ⟨later, rfl⟩ := rest.exists_cons
        obtain ⟨nextFresh, laterDistinct⟩ := List.nodup_cons.mp distinct
        rw [List.getLast?_cons_cons] at ends
        refine ⟨next, leads, ?_⟩
        by_cases isTarget : next = target
        · have nothing : later = [] := by
            cases later with
            | nil => rfl
            | cons second others =>
                rw [List.getLast?_cons_cons, ← isTarget] at ends
                exact absurd (List.mem_of_getLast? ends) nextFresh
          subst nothing
          have shortest := rest.length_eq
          exact Or.inl ⟨isTarget,
            List.length_eq_zero_iff.mp (by simpa using shortest)⟩
        · refine Or.inr ⟨isTarget, fresh next List.mem_cons_self, later, rest,
            ends, laterDistinct, fun other member known => ?_⟩
          rcases List.mem_cons.mp known with rfl | visitedBefore
          · exact nextFresh member
          · exact fresh other (List.mem_cons_of_mem _ member) visitedBefore
  · intro onward
    obtain ⟨next, leads, ⟨rfl, rfl⟩ | ⟨_, isNew, later, rest, ends, distinct,
      fresh⟩⟩ := onward
    · refine ⟨[next], .follow leads (.stay next), rfl,
        List.nodup_singleton next, ?_⟩
      simpa using notVisited
    · refine ⟨next :: later, .follow leads rest, ?_, ?_, ?_⟩
      · rw [List.getLast?_cons_cons]
        exact ends
      · refine List.nodup_cons.mpr ⟨fun member => ?_, distinct⟩
        exact fresh next member List.mem_cons_self
      · intro other member
        rcases List.mem_cons.mp member with rfl | inLater
        · exact isNew
        · exact fun known =>
            fresh other inLater (List.mem_cons_of_mem _ known)

/-! ## What is left to try at a node -/

/-- The walks that go on from a node by an entry that was not tried. -/
def untried (table : SuccessorTable) (target : Nat) (visited : List Nat)
    (node tried : Nat) : Set (List Nat) :=
  {entries | ∃ entry later, entries = entry :: later ∧ tried ≤ entry ∧
    table.Onward target visited node entries}

/-- The walks that go on by one entry, without that entry. -/
def through (table : SuccessorTable) (target : Nat) (visited : List Nat)
    (node entry : Nat) : Set (List Nat) :=
  {later | table.Onward target visited node (entry :: later)}

theorem encard_untried (visited : List Nat) (node tried : Nat) :
    (table.untried target visited node tried).encard =
      (table.through target visited node tried).encard
        + (table.untried target visited node (tried + 1)).encard := by
  have split : table.untried target visited node tried =
      (tried :: ·) '' table.through target visited node tried
        ∪ table.untried target visited node (tried + 1) := by
    ext entries
    constructor
    · intro member
      obtain ⟨entry, later, rfl, atLeast, onward⟩ := member
      rcases Nat.eq_or_lt_of_le atLeast with rfl | above
      · exact Or.inl ⟨later, onward, rfl⟩
      · exact Or.inr ⟨entry, later, rfl, above, onward⟩
    · intro member
      rcases member with ⟨later, onward, rfl⟩ |
        ⟨entry, later, rfl, above, onward⟩
      · exact ⟨tried, later, rfl, Nat.le_refl _, onward⟩
      · exact ⟨entry, later, rfl, Nat.le_of_succ_le above, onward⟩
  have apart : Disjoint ((tried :: ·) '' table.through target visited node tried)
      (table.untried target visited node (tried + 1)) := by
    rw [Set.disjoint_left]
    rintro _ ⟨later, _, rfl⟩ ⟨entry, _, same, above, _⟩
    cases same
    exact Nat.lt_irrefl _ above
  rw [split, Set.encard_union_eq apart,
    (List.cons_injective (a := tried)).encard_image]

theorem untried_eq_empty {visited : List Nat} {node tried : Nat}
    {successors : List Nat} (listed : table[node]? = some successors)
    (exhausted : successors[tried]? = none) (notVisited : target ∉ visited) :
    table.untried target visited node tried = ∅ := by
  rw [Set.eq_empty_iff_forall_notMem]
  rintro _ ⟨entry, later, rfl, atLeast, onward⟩
  obtain ⟨next, ⟨others, otherListed, found⟩, _⟩ :=
    (onward_cons_iff notVisited).mp onward
  cases listed.symm.trans otherListed
  obtain ⟨inRange, _⟩ := List.getElem?_eq_some_iff.mp found
  have beyond := List.getElem?_eq_none_iff.mp exhausted
  omega

/-- An entry gives one path where it leads to the target, none where it leads
back to the path, and all those of the next node otherwise. -/
theorem through_eq {visited : List Nat} {node entry next : Nat}
    (leads : table.Leads node entry next) (notVisited : target ∉ visited) :
    table.through target visited node entry =
      if next = target then {[]}
      else if next ∈ visited then ∅
      else table.untried target (next :: visited) next 0 := by
  ext later
  have through_iff : later ∈ table.through target visited node entry ↔
      next = target ∧ later = [] ∨
        next ≠ target ∧ next ∉ visited ∧
          table.Onward target (next :: visited) next later := by
    refine (onward_cons_iff notVisited).trans ⟨?_, fun goes => ⟨next, leads, goes⟩⟩
    rintro ⟨other, otherLeads, goes⟩
    cases leads.unique otherLeads
    exact goes
  rw [through_iff]
  split
  · rename_i isTarget
    simp [isTarget]
  · rename_i notTarget
    split
    · rename_i known
      simp [notTarget, known]
    · rename_i isNew
      simp only [notTarget, isNew, false_and, false_or, not_false_eq_true,
        true_and, ne_eq]
      constructor
      · intro onward
        cases later with
        | nil => exact absurd onward (not_onward_nil notTarget)
        | cons first others =>
            exact ⟨first, others, rfl, Nat.zero_le _, onward⟩
      · rintro ⟨_, _, rfl, _, onward⟩
        exact onward

end SuccessorTable

namespace PathSearch

open SuccessorTable

variable {table : SuccessorTable} {target : Nat} {search moved : PathSearch}

/-- The nodes of a path, the last one first. -/
def nodes (path : List PathFrame) : List Nat :=
  path.map PathFrame.node

/-- How many paths will be found by going on from the nodes of a path. -/
noncomputable def expectedFrom (table : SuccessorTable) (target : Nat) :
    List PathFrame → ℕ∞
  | [] => 0
  | frame :: earlier =>
      (table.untried target (nodes (frame :: earlier)) frame.node
          frame.tried).encard
        + expectedFrom table target earlier

/-- How many paths will have been found in the end. -/
noncomputable def expected (table : SuccessorTable) (target : Nat)
    (search : PathSearch) : ℕ∞ :=
  search.found + expectedFrom table target search.path

/-- The marks are those of the nodes on the path, which are distinct, in the
table and not the target. -/
structure Tracks (table : SuccessorTable) (target : Nat)
    (search : PathSearch) : Prop where
  distinct : (nodes search.path).Nodup
  avoids : target ∉ nodes search.path
  marked_iff : ∀ node,
    search.onPath[node]? = some true ↔ node ∈ nodes search.path
  length_eq : search.onPath.length = table.length

theorem tracks_start {source : Nat} (different : source ≠ target)
    (inRange : source < table.length) :
    (start table source).Tracks table target where
  distinct := List.nodup_singleton source
  avoids := by simpa [start, nodes] using Ne.symm different
  marked_iff := by
    intro node
    simp only [start, nodes, List.map_cons, List.map_nil, List.mem_singleton]
    grind
  length_eq := by simp [start]

theorem Tracks.not_mem_of_unmarked (tracks : search.Tracks table target)
    {node : Nat} (unmarked : search.onPath[node]? = some false) :
    node ∉ nodes search.path := by
  intro member
  have marked := (tracks.marked_iff node).mpr member
  rw [unmarked] at marked
  cases marked

theorem Tracks.moves (tracks : search.Tracks table target)
    (moves : Moves table target search moved) :
    moved.Tracks table target := by
  have isNew := @tracks.not_mem_of_unmarked
  obtain ⟨distinct, avoids, marked_iff, length_eq⟩ := tracks
  cases moves with
  | @leave node _ _ earlier onPath _ _ _ =>
      obtain ⟨fresh, earlierDistinct⟩ := List.nodup_cons.mp distinct
      refine ⟨earlierDistinct,
        fun member => avoids (List.mem_cons_of_mem _ member), ?_, ?_⟩
      · intro other
        simp only [nodes, List.map_cons, List.mem_cons] at marked_iff fresh ⊢
        grind
      · simpa using length_eq
  | arrive _ _ => exact ⟨distinct, avoids, marked_iff, length_eq⟩
  | avoid _ _ _ _ => exact ⟨distinct, avoids, marked_iff, length_eq⟩
  | @enter node tried _ next earlier onPath _ _ _ different unmarked =>
      refine ⟨List.nodup_cons.mpr ⟨isNew unmarked, distinct⟩, ?_, ?_, ?_⟩
      · intro member
        rcases List.mem_cons.mp member with same | before
        · exact different same.symm
        · exact avoids before
      · intro other
        simp only [nodes, List.map_cons, List.mem_cons] at marked_iff ⊢
        grind
      · simpa using length_eq

theorem expectedFrom_tried (table : SuccessorTable) (target node tried : Nat)
    (earlier : List PathFrame) :
    expectedFrom table target (⟨node, tried⟩ :: earlier) =
      (table.through target (nodes (⟨node, tried⟩ :: earlier)) node
          tried).encard
        + expectedFrom table target (⟨node, tried + 1⟩ :: earlier) := by
  simp only [expectedFrom]
  rw [encard_untried _ node tried, add_assoc]
  rfl

/-- A move changes which paths were found already, but not how many there will
be in the end. -/
theorem Tracks.expected_eq (tracks : search.Tracks table target)
    (moves : Moves table target search moved) :
    expected table target moved = expected table target search := by
  have isNew := @tracks.not_mem_of_unmarked
  obtain ⟨_, avoids, marked_iff, _⟩ := tracks
  cases moves with
  | leave listed exhausted =>
      simp only [expected, expectedFrom]
      rw [untried_eq_empty listed exhausted avoids, Set.encard_empty, zero_add]
  | @arrive node tried found earlier _ _ listed tries =>
      have through := through_eq ⟨_, listed, tries⟩ avoids
      rw [if_pos rfl] at through
      simp only [expected] at through ⊢
      rw [expectedFrom_tried table target node tried, through,
        Set.encard_singleton, Nat.cast_add, Nat.cast_one, add_assoc]
  | @avoid node tried found next earlier _ _ listed tries different marked =>
      have through := through_eq ⟨_, listed, tries⟩ avoids
      rw [if_neg different, if_pos ((marked_iff next).mp marked)] at through
      simp only [expected] at through ⊢
      rw [expectedFrom_tried table target node tried, through,
        Set.encard_empty, zero_add]
  | @enter node tried found next earlier _ _ listed tries different unmarked =>
      have through := through_eq ⟨_, listed, tries⟩ avoids
      rw [if_neg different, if_neg (isNew unmarked)] at through
      simp only [expected] at through ⊢
      rw [expectedFrom_tried table target node tried, through, expectedFrom]
      rfl

/-! ## The whole count -/

/-- Where all that can be entered is in the table, nothing else is looked up. -/
theorem Tracks.step_cases (tracks : search.Tracks table target)
    (inside : ∀ successors ∈ table, ∀ next ∈ successors,
      next ≠ target → next < table.length) :
    (search.path = [] ∧ search.step table target = .finished search.found) ∨
      ∃ moved, search.step table target = .moved moved := by
  obtain ⟨path, onPath, found⟩ := search
  cases path with
  | nil => exact Or.inl ⟨rfl, rfl⟩
  | cons frame earlier =>
      right
      have marked := (tracks.marked_iff frame.node).mpr List.mem_cons_self
      obtain ⟨inRange, _⟩ := List.getElem?_eq_some_iff.mp marked
      obtain ⟨successors, listed⟩ :
          ∃ successors, table[frame.node]? = some successors :=
        ⟨_, List.getElem?_eq_getElem (tracks.length_eq ▸ inRange)⟩
      simp only [step, listed]
      split
      · exact ⟨_, rfl⟩
      · rename_i next tries
        split
        · exact ⟨_, rfl⟩
        · rename_i notTarget
          have nextInRange : next < onPath.length :=
            tracks.length_eq ▸ inside successors (List.mem_of_getElem? listed)
              next (List.mem_of_getElem? tries) notTarget
          rw [List.getElem?_eq_getElem nextInRange]
          cases onPath[next] with
          | true => exact ⟨_, rfl⟩
          | false => exact ⟨_, rfl⟩

theorem run_of_finished {found : Nat}
    (stepped : search.step table target = .finished found) :
    search.run table target = some found := by
  rw [run]
  split
  · rename_i ended
    cases stepped.symm.trans ended
    rfl
  · rename_i ended
    cases stepped.symm.trans ended
  · rename_i ended
    cases stepped.symm.trans ended

theorem run_of_outside (stepped : search.step table target = .outside) :
    search.run table target = none := by
  rw [run]
  split
  · rename_i ended
    cases stepped.symm.trans ended
  · rfl
  · rename_i ended
    cases stepped.symm.trans ended

theorem found_of_finished {found : Nat}
    (stepped : search.step table target = .finished found) :
    found = search.found := by
  unfold step at stepped
  grind

theorem run_of_moved (stepped : search.step table target = .moved moved) :
    search.run table target = moved.run table target := by
  rw [run]
  split
  · rename_i goesOn
    cases stepped.symm.trans goesOn
  · rename_i goesOn
    cases stepped.symm.trans goesOn
  · rename_i goesOn
    cases stepped.symm.trans goesOn
    rfl

/-- A run ends, and by then it has found what was expected. -/
theorem Tracks.run_eq (tracks : search.Tracks table target)
    (inside : ∀ successors ∈ table, ∀ next ∈ successors,
      next ≠ target → next < table.length) :
    ∃ count : Nat, search.run table target = some count ∧
      (count : ℕ∞) = expected table target search := by
  -- Every move makes the effort smaller and keeps what is expected.
  induction bound : search.effort table using Nat.strong_induction_on
    generalizing search with
  | _ effort ih =>
      rcases tracks.step_cases inside with ⟨empty, ends⟩ | ⟨moved, goesOn⟩
      · refine ⟨search.found, run_of_finished ends, ?_⟩
        rw [expected, empty, expectedFrom, add_zero]
      · have moves := moves_of_step goesOn
        obtain ⟨count, ran, isExpected⟩ :=
          ih _ (bound ▸ effort_lt_of_moves moves) (tracks.moves moves) rfl
        exact ⟨count, (run_of_moved goesOn).trans ran,
          isExpected.trans (tracks.expected_eq moves)⟩

/-! ## The counter

The number of paths found only grows, so none on the way is larger than the one in
the end. -/

theorem Moves.found_le (moves : Moves table target search moved) :
    search.found ≤ moved.found := by
  cases moves with
  | leave => exact Nat.le_refl _
  | arrive => exact Nat.le_succ _
  | avoid => exact Nat.le_refl _
  | enter => exact Nat.le_refl _

theorem found_le_of_run {count : Nat}
    (ran : search.run table target = some count) : search.found ≤ count := by
  induction bound : search.effort table using Nat.strong_induction_on
    generalizing search with
  | _ effort ih =>
      cases stepped : search.step table target with
      | finished found =>
          rw [run_of_finished stepped] at ran
          cases ran
          exact (found_of_finished stepped).ge
      | outside =>
          rw [run_of_outside stepped] at ran
          cases ran
      | moved moved =>
          have moves := moves_of_step stepped
          rw [run_of_moved stepped] at ran
          exact moves.found_le.trans
            (ih _ (bound ▸ effort_lt_of_moves moves) ran rfl)

theorem found_le_of_reached {start reached : PathSearch} {count : Nat}
    (ran : start.run table target = some count)
    (reaches : Relation.ReflTransGen
      (fun search moved => search.step table target = .moved moved)
      start reached) : reached.found ≤ count := by
  have still : reached.run table target = some count := by
    induction reaches with
    | refl => exact ran
    | tail _ stepped ih => exact (run_of_moved stepped).symm.trans ih
  exact found_le_of_run still

end PathSearch

namespace SuccessorTable

variable {table : SuccessorTable}

/-- A walk back to its source visits it twice, unless it stays there. -/
theorem simpleWalk_self_iff {node : Nat} {entries : List Nat} :
    table.SimpleWalk node node entries ↔ entries = [] := by
  constructor
  · intro simple
    obtain ⟨nodes, walk, ends, distinct⟩ := simple
    cases walk with
    | stay => rfl
    | follow _ rest =>
        obtain ⟨later, rfl⟩ := rest.exists_cons
        rw [List.getLast?_cons_cons] at ends
        exact absurd (List.mem_of_getLast? ends)
          (List.nodup_cons.mp distinct).1
  · rintro rfl
    exact ⟨[node], .stay node, rfl, List.nodup_singleton node⟩

theorem setOf_simpleWalk {source target : Nat} (different : source ≠ target) :
    {entries | table.SimpleWalk source target entries} =
      table.untried target [source] source 0 := by
  ext entries
  simp only [Set.mem_ofPred_eq, simpleWalk_iff_onward, untried]
  constructor
  · intro onward
    cases entries with
    | nil => exact absurd onward (not_onward_nil different)
    | cons entry later => exact ⟨entry, later, rfl, Nat.zero_le _, onward⟩
  · rintro ⟨_, _, _, _, onward⟩
    exact onward

theorem countPaths_self (table : SuccessorTable) (node : Nat) :
    table.countPaths node node = some 1 :=
  if_pos rfl

theorem exists_countPaths {source : Nat}
    (inside : source = target ∨ source < table.length ∧
      ∀ successors ∈ table, ∀ next ∈ successors,
        next ≠ target → next < table.length) :
    ∃ count : Nat, table.countPaths source target = some count ∧
      {entries | table.SimpleWalk source target entries}.encard = count := by
  by_cases same : source = target
  · subst same
    refine ⟨1, countPaths_self table source, ?_⟩
    simp only [simpleWalk_self_iff, Set.ofPred_eq_eq_singleton,
      Set.encard_singleton, Nat.cast_one]
  · obtain ⟨inRange, successorsInside⟩ := inside.resolve_left same
    obtain ⟨count, ran, isExpected⟩ :=
      (PathSearch.tracks_start same inRange).run_eq successorsInside
    refine ⟨count, ?_, ?_⟩
    · rw [countPaths, if_neg same, if_pos inRange]
      exact ran
    · rw [isExpected, setOf_simpleWalk same]
      simp [PathSearch.expected, PathSearch.expectedFrom, PathSearch.start,
        PathSearch.nodes]

/-- A counter of 64 bits shows the same numbers on the way and in the end, as long as
there are fewer than `2 ^ 64` simple walks. -/
theorem found_lt_of_simpleWalks {source : Nat} (different : source ≠ target)
    (inRange : source < table.length)
    (inside : ∀ successors ∈ table, ∀ next ∈ successors,
      next ≠ target → next < table.length)
    (few : {entries | table.SimpleWalk source target entries}.encard <
      2 ^ 64)
    {reached : PathSearch}
    (reaches : Relation.ReflTransGen
      (fun search moved => search.step table target = .moved moved)
      (PathSearch.start table source) reached) :
    reached.found < 2 ^ 64 := by
  obtain ⟨count, counted, simple⟩ :=
    exists_countPaths (Or.inr ⟨inRange, inside⟩)
  rw [countPaths, if_neg different, if_pos inRange] at counted
  rw [simple] at few
  have fits : count < 2 ^ 64 := by exact_mod_cast few
  exact Nat.lt_of_le_of_lt (PathSearch.found_le_of_reached counted reaches) fits

/-- The count ends with the number of simple walks, and without looking up
anything outside the table, where the source is the target or the source and all
successors but the target are in the table. -/
theorem countPaths_simpleWalks (table : SuccessorTable) (source target : Nat)
    (inside : source = target ∨ source < table.length ∧
      ∀ successors ∈ table, ∀ next ∈ successors,
        next ≠ target → next < table.length) :
    ∃ count : Nat, table.countPaths source target = some count ∧
      {entries | table.SimpleWalk source target entries}.encard = count ∧
      (source = target → count = 1) := by
  obtain ⟨count, counted, simple⟩ := exists_countPaths inside
  refine ⟨count, counted, simple, fun same => ?_⟩
  subst same
  exact Option.some.inj (counted.symm.trans (countPaths_self table source))

/-- A self-loop, cycles, repeated successors, and the target outside the
table. -/
def tangled : SuccessorTable :=
  [[0, 1, 1, 2], [2, 5, 0], [5, 1, 0, 5]]

theorem tangled_simpleWalks :
    tangled.countPaths 0 5 = some 9 ∧
      {entries | tangled.SimpleWalk 0 5 entries}.encard = 9 := by
  obtain ⟨count, counted, simple, _⟩ :=
    countPaths_simpleWalks tangled 0 5 (Or.inr ⟨by decide, by decide⟩)
  have known : tangled.countPaths 0 5 = some 9 := by decide +kernel
  cases known.symm.trans counted
  exact ⟨known, simple⟩

end SuccessorTable

end Recognizer
