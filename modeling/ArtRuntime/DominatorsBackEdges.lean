import ArtRuntime.DominatorsCommon
import Mathlib.Algebra.Order.BigOperators.Group.List
import Mathlib.Algebra.Order.Group.Nat

namespace ArtRuntime.Optimizing

open ArtRuntime.Graph

/-!
# The back edges of `FindBackEdges`

The search is a depth-first search with an explicit stack.  Its invariant
`SearchInvariant` is stated with two values the code does not keep: the tree
parent of each visited block, and the list of blocks the search has finished,
in the order it finished them.  The stack is the chain of tree parents from
its top down to the entry block; an edge that is not a back edge leads to a
block finished before its source, or to a block above its source on the
stack; and each back edge is recorded once for each time it occurs among the
successors of its source.

On a well-formed graph the search finishes within `TraversalBound`
iterations, and its back edges have the properties `BackEdges` that the
dominance computation relies on.
-/

namespace HGraph

variable (graph : HGraph)

/-- An edge that is not a back edge. -/
def ForwardEdge (back_edges : Nat → List Nat) (block successor : Nat) : Prop :=
  block < graph.num_blocks ∧ successor ∈ graph.successors block ∧ block ∉ back_edges successor

/-- What `ComputeDominanceInformation` needs of the back edges: each occurs
in the list of its header once per edge, its header reaches its source along
forward edges, forward edges go down a ranking, and every block is reached
from the entry block along forward edges. -/
structure BackEdges (back_edges : Nat → List Nat) : Prop where
  source_lt : ∀ source header, source ∈ back_edges header → source < graph.num_blocks
  count : ∀ source header, source ∈ back_edges header →
    (back_edges header).count source = (graph.successors source).count header
  header_reaches : ∀ source header, source ∈ back_edges header →
    Relation.ReflTransGen (graph.ForwardEdge back_edges) header source
  ranked : ∃ rank : Nat → Nat, ∀ block successor,
    graph.ForwardEdge back_edges block successor → rank successor < rank block
  entry_reaches : ∀ block < graph.num_blocks,
    Relation.ReflTransGen (graph.ForwardEdge back_edges) graph.entry_block block

end HGraph

/-- A stack whose blocks are each the tree child of the one below, down to
the entry block. -/
inductive TreePath (treeParent : Nat → Option Nat) (entry : Nat) : List Nat → Prop
  | entry : TreePath treeParent entry [entry]
  | push {top below : Nat} {rest : List Nat} : treeParent top = some below →
      TreePath treeParent entry (below :: rest) → TreePath treeParent entry (top :: below :: rest)

namespace TreePath

variable {treeParent : Nat → Option Nat} {entry : Nat}

/-- Every tree ancestor of the top of the stack is on the stack. -/
theorem mem_of_above (entryRoot : treeParent entry = none) :
    ∀ {top : Nat} {rest : List Nat}, TreePath treeParent entry (top :: rest) →
      ∀ {a : Nat}, Above treeParent a top → a ∈ top :: rest
  | _, _, .entry, a, above => by
      rw [above.eq_of_root entryRoot]
      exact List.mem_singleton_self _
  | top, _, .push hasParent path, a, above => by
      by_cases same : a = top
      · exact same ▸ List.mem_cons_self
      · obtain ⟨p, hasParent', aboveParent⟩ := above.parent_of_ne same
        rw [hasParent, Option.some.injEq] at hasParent'
        subst hasParent'
        exact List.mem_cons_of_mem _ (mem_of_above entryRoot path aboveParent)

/-- Every block of the stack is a tree ancestor of its top. -/
theorem above_of_mem :
    ∀ {top : Nat} {rest : List Nat}, TreePath treeParent entry (top :: rest) →
      ∀ {a : Nat}, a ∈ top :: rest → Above treeParent a top
  | _, _, .entry, a, member => by
      rw [List.mem_singleton] at member
      exact member ▸ .refl
  | _, _, .push hasParent path, a, member => by
      rcases List.mem_cons.mp member with same | below
      · exact same ▸ .refl
      · exact (above_of_mem path below).trans (.of_parent hasParent)

/-- The tree parent of a block of the stack is below it on the stack. -/
theorem parent_mem_tail (entryRoot : treeParent entry = none) :
    ∀ {stack : List Nat}, TreePath treeParent entry stack →
      ∀ {block p : Nat}, block ∈ stack → treeParent block = some p → p ∈ stack.tail
  | _, .entry, block, p, member, hasParent => by
      rw [List.mem_singleton] at member
      subst member
      rw [entryRoot] at hasParent
      cases hasParent
  | _, .push hasParent' path, block, p, member, hasParent => by
      rcases List.mem_cons.mp member with same | below
      · subst same
        rw [hasParent', Option.some.injEq] at hasParent
        exact hasParent ▸ List.mem_cons_self
      · exact List.mem_of_mem_tail (parent_mem_tail entryRoot path below hasParent)

theorem tail {top : Nat} {rest : List Nat} (path : TreePath treeParent entry (top :: rest)) :
    rest = [] ∨ TreePath treeParent entry rest := by
  cases path with
  | entry => exact .inl rfl
  | push _ path => exact .inr path

/-- A new tree parent for a block off the stack keeps the stack a path. -/
theorem update {stack : List Nat} (path : TreePath treeParent entry stack) {block : Nat}
    (absent : block ∉ stack) (newParent : Option Nat) :
    TreePath (Function.update treeParent block newParent) entry stack := by
  induction path with
  | entry => exact .entry
  | @push top below rest hasParent _ inductionHypothesis =>
      have notTop : top ≠ block := fun same => absent (same ▸ List.mem_cons_self)
      exact .push (by rw [Function.update_of_ne notTop, hasParent])
        (inductionHypothesis fun member => absent (List.mem_cons_of_mem _ member))

end TreePath

section Advance

variable {successors : Nat → List Nat} {examined : Nat → Nat} {current : Nat}

/-- Examining one more successor of `current` adds exactly that successor to
the successors examined. -/
theorem examined_advance (remaining : examined current < (successors current).length)
    (block successor : Nat) :
    successor ∈ (successors block).take (Function.update examined current (examined current + 1) block) ↔
      successor ∈ (successors block).take (examined block) ∨
        block = current ∧ successor = (successors current)[examined current]! := by
  by_cases isCurrent : block = current
  · subst block
    rw [Function.update_self, List.take_add_one, List.getElem?_eq_getElem remaining,
      getElem!_pos (successors current) _ remaining, Option.toList_some, List.mem_append,
      List.mem_singleton]
    simp
  · simp [isCurrent]

theorem count_advance (remaining : examined current < (successors current).length)
    (block header : Nat) :
    ((successors block).take (Function.update examined current (examined current + 1) block)).count
        header =
      ((successors block).take (examined block)).count header +
        if block = current ∧ header = (successors current)[examined current]! then 1 else 0 := by
  by_cases isCurrent : block = current
  · subst block
    rw [Function.update_self, List.take_add_one, List.getElem?_eq_getElem remaining,
      getElem!_pos (successors current) _ remaining, Option.toList_some, List.count_append,
      List.count_singleton]
    by_cases same : header = (successors current)[examined current]
    · simp [same]
    · simp [same, Ne.symm same]
  · simp [isCurrent]

end Advance

theorem count_update_append (lists : Nat → List Nat) (key value header source : Nat) :
    (Function.update lists key (lists key ++ [value]) header).count source =
      (lists header).count source + if header = key ∧ source = value then 1 else 0 := by
  by_cases isKey : header = key
  · subst header
    by_cases isValue : source = value
    · simp [isValue]
    · simp [isValue, Ne.symm isValue]
  · simp [isKey]

namespace HGraph

/-- The invariant of the loop of `FindBackEdges`, with the tree parent of
each visited block and the blocks finished so far, in the order the search
finished them. -/
structure SearchInvariant (graph : HGraph) (search : BackEdgeSearch)
    (treeParent : Nat → Option Nat) (finished : List Nat) : Prop where
  visited_lt : ∀ block, search.visited block = true → block < graph.num_blocks
  visiting_iff : ∀ block, search.visiting block = true ↔ block ∈ search.worklist
  visited_iff : ∀ block, search.visited block = true ↔ block ∈ search.worklist ∨ block ∈ finished
  worklist_nodup : search.worklist.Nodup
  finished_nodup : finished.Nodup
  disjoint : ∀ block ∈ finished, block ∉ search.worklist
  stack : search.worklist = [] ∨ TreePath treeParent graph.entry_block search.worklist
  entry_root : treeParent graph.entry_block = none
  entry_visited : search.visited graph.entry_block = true
  successors_visited_le : ∀ block,
    search.successors_visited block ≤ (graph.successors block).length
  unvisited : ∀ block, search.visited block = false → search.successors_visited block = 0
  finished_all : ∀ block ∈ finished,
    search.successors_visited block = (graph.successors block).length
  examined_visited : ∀ block successor,
    successor ∈ (graph.successors block).take (search.successors_visited block) →
      search.visited successor = true
  tree_edge : ∀ block p, treeParent block = some p →
    block ∈ (graph.successors p).take (search.successors_visited p) ∧
      p ∉ search.back_edges block
  reached : ∀ block, search.visited block = true → Above treeParent graph.entry_block block
  back_edge : ∀ source header, source ∈ search.back_edges header →
    search.visited source = true ∧ Above treeParent header source
  back_count : ∀ source header, source ∈ search.back_edges header →
    (search.back_edges header).count source =
      ((graph.successors source).take (search.successors_visited source)).count header
  -- an examined edge that is not a back edge leads to a block finished
  -- before its source, or above its source on the stack
  finish_order : ∀ block successor,
    successor ∈ (graph.successors block).take (search.successors_visited block) →
      block ∉ search.back_edges successor →
      (successor ∈ finished ∧ (block ∈ finished → finished.idxOf successor < finished.idxOf block)) ∨
      (successor ∈ search.worklist ∧ block ∈ search.worklist ∧
        search.worklist.idxOf successor < search.worklist.idxOf block)

namespace SearchInvariant

variable {graph : HGraph} {search : BackEdgeSearch} {treeParent : Nat → Option Nat}
  {finished : List Nat}

theorem visited_of_examined (invariant : SearchInvariant graph search treeParent finished)
    {block successor : Nat}
    (examined : successor ∈ (graph.successors block).take (search.successors_visited block)) :
    search.visited block = true := by
  by_contra unvisited
  rw [invariant.unvisited block (Bool.eq_false_iff.mpr unvisited), List.take_zero] at examined
  cases examined

theorem visited_of_mem (invariant : SearchInvariant graph search treeParent finished)
    {block : Nat} (member : block ∈ search.worklist) : search.visited block = true :=
  (invariant.visited_iff block).mpr (.inl member)

/-- The tree ancestors of a visited block are visited. -/
theorem visited_of_above (invariant : SearchInvariant graph search treeParent finished)
    {a b : Nat} (above : Above treeParent a b) (visited : search.visited b = true) :
    search.visited a = true := by
  induction above with
  | refl => exact visited
  | up hasParent _ inductionHypothesis =>
      exact inductionHypothesis (invariant.visited_of_examined (invariant.tree_edge _ _ hasParent).1)

/-- The top of the stack is no block's tree parent on the stack. -/
theorem parent_ne_top (invariant : SearchInvariant graph search treeParent finished)
    {current : Nat} {rest : List Nat} (top : search.worklist = current :: rest) {block : Nat}
    (member : block ∈ search.worklist) : treeParent block ≠ some current := by
  intro hasParent
  rcases invariant.stack with empty | path
  · rw [empty] at member
    cases member
  · have below := TreePath.parent_mem_tail invariant.entry_root path member hasParent
    have nodup := invariant.worklist_nodup
    rw [top] at below nodup
    exact (List.nodup_cons.mp nodup).1 below

/-- A back edge into a visited block that is not on the stack cannot leave
the top of the stack. -/
theorem not_back_of_not_visiting (invariant : SearchInvariant graph search treeParent finished)
    {current : Nat} {rest : List Nat} (top : search.worklist = current :: rest) {header : Nat}
    (notVisiting : search.visiting header = false) : current ∉ search.back_edges header := by
  intro back
  rcases invariant.stack with empty | path
  · rw [empty] at top
    cases top
  · rw [top] at path
    have onStack := TreePath.mem_of_above invariant.entry_root path (invariant.back_edge _ _ back).2
    rw [← top, ← invariant.visiting_iff, notVisiting] at onStack
    cases onStack

/-- The search starts with the entry block visited and on the stack. -/
theorem initial (wellFormed : graph.WellFormed) :
    SearchInvariant graph
      { visited := Function.update (fun _ => false) graph.entry_block true
        visiting := Function.update (fun _ => false) graph.entry_block true
        successors_visited := fun _ => 0
        worklist := [graph.entry_block]
        back_edges := fun _ => [] }
      (fun _ => none) [] where
  visited_lt block visited := by
    by_cases isEntry : block = graph.entry_block
    · exact isEntry ▸ wellFormed.entry_lt
    · simp [Function.update_of_ne isEntry] at visited
  visiting_iff block := by
    by_cases isEntry : block = graph.entry_block
    · simp [isEntry]
    · simp [isEntry]
  visited_iff block := by
    by_cases isEntry : block = graph.entry_block
    · simp [isEntry]
    · simp [isEntry]
  worklist_nodup := List.nodup_singleton _
  finished_nodup := List.nodup_nil
  disjoint _ member := by cases member
  stack := .inr .entry
  entry_root := rfl
  entry_visited := by simp
  successors_visited_le _ := Nat.zero_le _
  unvisited _ _ := rfl
  finished_all _ member := by cases member
  examined_visited _ _ examined := by cases examined
  tree_edge _ _ hasParent := by cases hasParent
  reached block visited := by
    by_cases isEntry : block = graph.entry_block
    · exact isEntry ▸ .refl
    · simp [Function.update_of_ne isEntry] at visited
  back_edge _ _ back := by cases back
  back_count _ _ back := by cases back
  finish_order _ _ examined := by cases examined

/-- Popping a block whose successors have all been examined finishes it. -/
theorem pop (invariant : SearchInvariant graph search treeParent finished) {current : Nat}
    {rest : List Nat} (top : search.worklist = current :: rest)
    (done : search.successors_visited current = (graph.successors current).length) :
    SearchInvariant graph
      { search with visiting := Function.update search.visiting current false, worklist := rest }
      treeParent (finished ++ [current]) := by
  have nodup := invariant.worklist_nodup
  rw [top, List.nodup_cons] at nodup
  have notFinished : current ∉ finished := fun member =>
    invariant.disjoint current member (top ▸ List.mem_cons_self)
  -- blocks below the top keep their order on the stack
  have below : ∀ {block}, block ∈ search.worklist → block ≠ current →
      block ∈ rest ∧ search.worklist.idxOf block = rest.idxOf block + 1 := fun member differs => by
    rw [top] at member ⊢
    exact ⟨(List.mem_cons.mp member).resolve_left differs, List.idxOf_cons_ne _ (Ne.symm differs)⟩
  refine { invariant with
    visiting_iff := fun block => ?_, visited_iff := fun block => ?_
    worklist_nodup := nodup.2, finished_nodup := ?_, disjoint := fun block member => ?_
    stack := ?_, finished_all := fun block member => ?_
    finish_order := fun block successor examined notBack => ?_ }
  · by_cases isCurrent : block = current
    · subst isCurrent
      simp [nodup.1]
    · simp [invariant.visiting_iff, top, isCurrent]
  · rw [invariant.visited_iff, top]
    simp only [List.mem_cons, List.mem_append]
    tauto
  · rw [← List.concat_eq_append]
    exact invariant.finished_nodup.concat notFinished
  · rcases List.mem_append.mp member with finished | isCurrent
    · exact fun onStack => invariant.disjoint block finished (top ▸ List.mem_cons_of_mem _ onStack)
    · rw [List.mem_singleton.mp isCurrent]
      exact nodup.1
  · rcases invariant.stack with empty | path
    · rw [top] at empty
      cases empty
    · rw [top] at path
      exact path.tail
  · rcases List.mem_append.mp member with finished | isCurrent
    · exact invariant.finished_all block finished
    · rw [List.mem_singleton.mp isCurrent]
      exact done
  · rcases invariant.finish_order block successor examined notBack with
      ⟨finished, before⟩ | ⟨onStack, sourceOnStack, above⟩
    · refine .inl ⟨List.mem_append_left _ finished, fun sourceFinished => ?_⟩
      rw [List.idxOf_append_of_mem finished]
      rcases List.mem_append.mp sourceFinished with sourceFinished | isCurrent
      · rw [List.idxOf_append_of_mem sourceFinished]
        exact before sourceFinished
      · rw [List.mem_singleton.mp isCurrent, List.idxOf_append, if_neg notFinished]
        exact Nat.lt_of_lt_of_le (List.idxOf_lt_length_of_mem finished) (Nat.le_add_left _ _)
    · by_cases sourceCurrent : block = current
      · -- nothing is above the top of the stack
        subst sourceCurrent
        rw [top, List.idxOf_cons_self] at above
        cases above
      by_cases isCurrent : successor = current
      · subst isCurrent
        refine .inl ⟨List.mem_append_right _ (List.mem_singleton_self _), fun sourceFinished => ?_⟩
        exact absurd sourceOnStack (invariant.disjoint block ((List.mem_append.mp sourceFinished).resolve_right
          (fun same => sourceCurrent (List.mem_singleton.mp same))))
      · obtain ⟨successorBelow, successorIndex⟩ := below onStack isCurrent
        obtain ⟨sourceBelow, sourceIndex⟩ := below sourceOnStack sourceCurrent
        exact .inr ⟨successorBelow, sourceBelow, by dsimp only; omega⟩

section Examine

variable (invariant : SearchInvariant graph search treeParent finished) {current : Nat}
  {rest : List Nat} (top : search.worklist = current :: rest)
  (remaining : search.successors_visited current < (graph.successors current).length)
include invariant top remaining

omit top in
theorem advance_le (block : Nat) :
    Function.update search.successors_visited current (search.successors_visited current + 1) block ≤
      (graph.successors block).length := by
  by_cases isCurrent : block = current
  · subst block
    rw [Function.update_self]
    exact remaining
  · rw [Function.update_of_ne isCurrent]
    exact invariant.successors_visited_le block

omit remaining in
theorem advance_unvisited {block : Nat} (unvisited : search.visited block = false) :
    Function.update search.successors_visited current (search.successors_visited current + 1) block =
      0 := by
  have isCurrent : block ≠ current := by
    rintro rfl
    rw [invariant.visited_of_mem (top ▸ List.mem_cons_self)] at unvisited
    cases unvisited
  rw [Function.update_of_ne isCurrent]
  exact invariant.unvisited block unvisited

omit remaining in
theorem advance_finished {block : Nat} (member : block ∈ finished) :
    Function.update search.successors_visited current (search.successors_visited current + 1) block =
      (graph.successors block).length := by
  have isCurrent : block ≠ current := by
    rintro rfl
    exact invariant.disjoint block member (top ▸ List.mem_cons_self)
  rw [Function.update_of_ne isCurrent]
  exact invariant.finished_all block member

/-- An edge into a block on the stack is recorded as a back edge. -/
theorem back {successor : Nat}
    (next : (graph.successors current)[search.successors_visited current]! = successor)
    (visiting : search.visiting successor = true) :
    SearchInvariant graph
      { search with
        successors_visited :=
          Function.update search.successors_visited current (search.successors_visited current + 1)
        back_edges :=
          Function.update search.back_edges successor (search.back_edges successor ++ [current]) }
      treeParent finished := by
  have onStack := (invariant.visiting_iff successor).mp visiting
  have examined := examined_advance remaining
  rw [next] at examined
  -- a block on the stack has no earlier non-back edge from the top of the stack
  have fresh : current ∉ search.back_edges successor →
      ((graph.successors current).take (search.successors_visited current)).count successor = 0 := by
    intro notBack
    refine List.count_eq_zero.mpr fun earlier => ?_
    rcases invariant.finish_order current successor earlier notBack with
      ⟨finished, _⟩ | ⟨_, _, above⟩
    · exact invariant.disjoint successor finished onStack
    · rw [top, List.idxOf_cons_self] at above
      cases above
  refine { invariant with
    successors_visited_le := advance_le invariant remaining
    unvisited := fun block unvisited => advance_unvisited invariant top unvisited
    finished_all := fun block member => advance_finished invariant top member
    examined_visited := fun block header member => ?_
    tree_edge := fun block p hasParent => ?_
    back_edge := fun source header back => ?_
    back_count := fun source header back => ?_
    finish_order := fun block header member notBack => ?_ }
  · rcases (examined block header).mp member with old | ⟨_, rfl⟩
    · exact invariant.examined_visited block header old
    · exact invariant.visited_of_mem onStack
  · obtain ⟨treeEdge, notBack⟩ := invariant.tree_edge block p hasParent
    refine ⟨(examined p block).mpr (.inl treeEdge), ?_⟩
    by_cases isSuccessor : block = successor
    · subst block
      have notTop := invariant.parent_ne_top top onStack
      dsimp only
      rw [Function.update_self, List.mem_append, List.mem_singleton]
      rintro (old | rfl)
      · exact notBack old
      · exact notTop hasParent
    · dsimp only
      rwa [Function.update_of_ne isSuccessor]
  · by_cases isSuccessor : header = successor
    · subst header
      dsimp only at back
      rw [Function.update_self, List.mem_append, List.mem_singleton] at back
      rcases back with old | rfl
      · exact invariant.back_edge source successor old
      · refine ⟨invariant.visited_of_mem (top ▸ List.mem_cons_self), ?_⟩
        rcases invariant.stack with empty | path
        · rw [empty] at onStack
          cases onStack
        · rw [top] at path onStack
          exact TreePath.above_of_mem path onStack
    · dsimp only at back
      rw [Function.update_of_ne isSuccessor] at back
      exact invariant.back_edge source header back
  · dsimp only
    rw [count_update_append, count_advance remaining, next]
    by_cases newEdge : header = successor ∧ source = current
    · obtain ⟨rfl, rfl⟩ := newEdge
      rw [if_pos ⟨rfl, rfl⟩, if_pos ⟨rfl, rfl⟩]
      by_cases old : source ∈ search.back_edges header
      · rw [invariant.back_count source header old]
      · rw [List.count_eq_zero.mpr old, fresh old]
    · have notNew : ¬ (source = current ∧ header = successor) := fun ⟨isSource, isHeader⟩ =>
        newEdge ⟨isHeader, isSource⟩
      rw [if_neg newEdge, if_neg notNew]
      refine invariant.back_count source header ?_
      dsimp only at back
      by_cases isSuccessor : header = successor
      · subst header
        rw [Function.update_self, List.mem_append, List.mem_singleton] at back
        exact back.resolve_right fun isSource => newEdge ⟨rfl, isSource⟩
      · rwa [Function.update_of_ne isSuccessor] at back
  · dsimp only at notBack
    have notOld : block ∉ search.back_edges header := by
      by_cases isSuccessor : header = successor
      · subst header
        rw [Function.update_self, List.mem_append, not_or] at notBack
        exact notBack.1
      · rwa [Function.update_of_ne isSuccessor] at notBack
    rcases (examined block header).mp member with old | ⟨rfl, rfl⟩
    · exact invariant.finish_order block header old notOld
    · rw [Function.update_self] at notBack
      exact absurd (List.mem_append_right _ (List.mem_singleton_self _)) notBack

/-- An edge into an unvisited block is a tree edge: the block is pushed. -/
theorem tree (wellFormed : graph.WellFormed) {successor : Nat}
    (next : (graph.successors current)[search.successors_visited current]! = successor)
    (unvisited : search.visited successor = false) :
    SearchInvariant graph
      { search with
        successors_visited :=
          Function.update search.successors_visited current (search.successors_visited current + 1)
        visited := Function.update search.visited successor true
        visiting := Function.update search.visiting successor true
        worklist := successor :: search.worklist }
      (Function.update treeParent successor (some current)) finished := by
  have examined := examined_advance remaining
  rw [next] at examined
  have currentVisited := invariant.visited_of_mem (top ▸ List.mem_cons_self)
  have isEdge : successor ∈ graph.successors current := by
    rw [← next, getElem!_pos (graph.successors current) _ remaining]
    exact List.getElem_mem remaining
  have offStack : successor ∉ search.worklist := fun member => by
    rw [invariant.visited_of_mem member] at unvisited
    cases unvisited
  have notFinished : successor ∉ finished := fun member => by
    rw [(invariant.visited_iff successor).mpr (.inr member)] at unvisited
    cases unvisited
  have ne_of_visited : ∀ {block}, search.visited block = true → block ≠ successor := by
    rintro block visited rfl
    rw [visited] at unvisited
    cases unvisited
  -- tree paths from visited blocks do not pass through the new block
  have transfer : ∀ {a b}, search.visited b = true → Above treeParent a b →
      Above (Function.update treeParent successor (some current)) a b := fun visited above =>
    (Above.update_iff_of_not_above (fun below =>
      ne_of_visited (invariant.visited_of_above below visited) rfl) _).mpr above
  have visitedNew : ∀ {block}, Function.update search.visited successor true block = true ↔
      block = successor ∨ search.visited block = true := by
    intro block
    by_cases isSuccessor : block = successor
    · simp [isSuccessor]
    · simp [isSuccessor]
  refine
    { visited_lt := fun block visited => ?_
      visiting_iff := fun block => ?_
      visited_iff := fun block => ?_
      worklist_nodup := List.nodup_cons.mpr ⟨offStack, invariant.worklist_nodup⟩
      finished_nodup := invariant.finished_nodup
      disjoint := fun block member onStack => ?_
      stack := ?_
      entry_root := ?_
      entry_visited := visitedNew.mpr (.inr invariant.entry_visited)
      successors_visited_le := advance_le invariant remaining
      unvisited := fun block unvisited => advance_unvisited invariant top ?_
      finished_all := fun block member => advance_finished invariant top member
      examined_visited := fun block header member => ?_
      tree_edge := fun block p hasParent => ?_
      reached := fun block visited => ?_
      back_edge := fun source header back => ?_
      back_count := fun source header back => ?_
      finish_order := fun block header member notBack => ?_ }
  · rcases visitedNew.mp visited with rfl | old
    · exact wellFormed.successors_lt current (invariant.visited_lt current currentVisited) _ isEdge
    · exact invariant.visited_lt block old
  · by_cases isSuccessor : block = successor
    · simp [isSuccessor]
    · simp [isSuccessor, invariant.visiting_iff]
  · rw [visitedNew, invariant.visited_iff, List.mem_cons]
    tauto
  · rcases List.mem_cons.mp onStack with rfl | old
    · exact notFinished member
    · exact invariant.disjoint block member old
  · rcases invariant.stack with empty | path
    · rw [top] at empty
      cases empty
    · refine .inr ?_
      have moved := path.update offStack (some current)
      rw [top] at moved ⊢
      exact .push (Function.update_self _ _ _) moved
  · rw [Function.update_of_ne (ne_of_visited invariant.entry_visited)]
    exact invariant.entry_root
  · dsimp only at unvisited
    by_cases isSuccessor : block = successor
    · rw [isSuccessor, Function.update_self] at unvisited
      cases unvisited
    · rwa [Function.update_of_ne isSuccessor] at unvisited
  · rcases (examined block header).mp member with old | ⟨_, rfl⟩
    · exact visitedNew.mpr (.inr (invariant.examined_visited block header old))
    · exact visitedNew.mpr (.inl rfl)
  · by_cases isSuccessor : block = successor
    · subst block
      rw [Function.update_self, Option.some.injEq] at hasParent
      subst hasParent
      refine ⟨(examined _ successor).mpr (.inr ⟨rfl, rfl⟩), fun back => ?_⟩
      exact ne_of_visited (invariant.visited_of_above (invariant.back_edge _ _ back).2
        currentVisited) rfl
    · rw [Function.update_of_ne isSuccessor] at hasParent
      obtain ⟨treeEdge, notBack⟩ := invariant.tree_edge block p hasParent
      exact ⟨(examined p block).mpr (.inl treeEdge), notBack⟩
  · rcases visitedNew.mp visited with rfl | old
    · exact .up (Function.update_self _ _ _) (transfer currentVisited (invariant.reached _ currentVisited))
    · exact transfer old (invariant.reached block old)
  · obtain ⟨sourceVisited, above⟩ := invariant.back_edge source header back
    exact ⟨visitedNew.mpr (.inr sourceVisited), transfer sourceVisited above⟩
  · rw [count_advance remaining, next, invariant.back_count source header back]
    obtain ⟨sourceVisited, above⟩ := invariant.back_edge source header back
    have notNew : ¬ (source = current ∧ header = successor) := fun ⟨_, isSuccessor⟩ =>
      ne_of_visited (invariant.visited_of_above above sourceVisited) isSuccessor
    rw [if_neg notNew, Nat.add_zero]
  · rcases (examined block header).mp member with old | ⟨rfl, rfl⟩
    · rcases invariant.finish_order block header old notBack with
        before | ⟨onStack, sourceOnStack, above⟩
      · exact .inl before
      · refine .inr ⟨List.mem_cons_of_mem _ onStack, List.mem_cons_of_mem _ sourceOnStack, ?_⟩
        rw [List.idxOf_cons_ne _ (fun same : successor = header => offStack (same ▸ onStack)),
          List.idxOf_cons_ne _ (fun same : successor = block => offStack (same ▸ sourceOnStack))]
        exact Nat.succ_lt_succ above
    · refine .inr ⟨List.mem_cons_self, List.mem_cons_of_mem _ (top ▸ List.mem_cons_self), ?_⟩
      dsimp only
      rw [List.idxOf_cons_self, List.idxOf_cons_ne _ (ne_of_visited currentVisited).symm]
      exact Nat.succ_pos _

/-- An edge into a finished block changes nothing but the count of examined
successors. -/
theorem cross {successor : Nat}
    (next : (graph.successors current)[search.successors_visited current]! = successor)
    (visited : search.visited successor = true) (notVisiting : search.visiting successor = false) :
    SearchInvariant graph
      { search with
        successors_visited :=
          Function.update search.successors_visited current (search.successors_visited current + 1) }
      treeParent finished := by
  have examined := examined_advance remaining
  rw [next] at examined
  have notBack := invariant.not_back_of_not_visiting top notVisiting
  refine { invariant with
    successors_visited_le := advance_le invariant remaining
    unvisited := fun block unvisited => advance_unvisited invariant top unvisited
    finished_all := fun block member => advance_finished invariant top member
    examined_visited := fun block header member => ?_
    tree_edge := fun block p hasParent => ?_
    back_count := fun source header back => ?_
    finish_order := fun block header member notBack => ?_ }
  · rcases (examined block header).mp member with old | ⟨_, rfl⟩
    · exact invariant.examined_visited block header old
    · exact visited
  · obtain ⟨treeEdge, notBack⟩ := invariant.tree_edge block p hasParent
    exact ⟨(examined p block).mpr (.inl treeEdge), notBack⟩
  · have notNew : ¬ (source = current ∧ header = successor) := by
      rintro ⟨rfl, rfl⟩
      exact notBack back
    dsimp only
    rw [count_advance remaining, next, if_neg notNew, Nat.add_zero]
    exact invariant.back_count source header back
  · rcases (examined block header).mp member with old | ⟨rfl, rfl⟩
    · exact invariant.finish_order block header old notBack
    · -- the successor is visited and off the stack, so it is finished
      have offStack : header ∉ search.worklist := by
        rw [← invariant.visiting_iff, notVisiting]
        exact Bool.false_ne_true
      have isFinished := ((invariant.visited_iff header).mp visited).resolve_left offStack
      exact .inl ⟨isFinished, fun sourceFinished =>
        absurd (top ▸ List.mem_cons_self) (invariant.disjoint _ sourceFinished)⟩

end Examine

/-- One iteration of the search keeps the invariant, for some tree parents
and finished blocks. -/
theorem step (wellFormed : graph.WellFormed)
    (invariant : SearchInvariant graph search treeParent finished) :
    ∃ treeParent' finished',
      SearchInvariant graph (graph.FindBackEdgesStep search) treeParent' finished' := by
  unfold FindBackEdgesStep
  split
  · exact ⟨treeParent, finished, invariant⟩
  · rename_i current rest top
    split
    · exact ⟨treeParent, finished ++ [current], invariant.pop top ‹_›⟩
    · have remaining : search.successors_visited current < (graph.successors current).length :=
        Nat.lt_of_le_of_ne (invariant.successors_visited_le current) ‹_›
      dsimp only
      split
      · exact ⟨treeParent, finished, invariant.back top remaining rfl ‹_›⟩
      · split
        · rename_i unvisited
          exact ⟨_, finished, invariant.tree top remaining wellFormed rfl (by simpa using unvisited)⟩
        · rename_i notVisiting visited
          exact ⟨treeParent, finished,
            invariant.cross top remaining rfl (by simpa using visited) (by simpa using notVisiting)⟩

end SearchInvariant

/-- The iterations the search has left for `block`: pushing it and examining
its successors while it is unvisited, examining the rest of its successors
and popping it while it is on the stack. -/
def RemainingWork (graph : HGraph) (search : BackEdgeSearch) (block : Nat) : Nat :=
  if search.visited block then
    if search.visiting block then
      (graph.successors block).length - search.successors_visited block + 1
    else 0
  else (graph.successors block).length + 1

/-- The iterations the search has left. -/
def SearchMeasure (graph : HGraph) (search : BackEdgeSearch) : Nat :=
  ((List.range graph.num_blocks).map (graph.RemainingWork search)).sum

variable {graph : HGraph} {search : BackEdgeSearch} {treeParent : Nat → Option Nat}
  {finished : List Nat}

/-- The search starts with all of `TraversalBound` left. -/
theorem SearchMeasure_initial :
    graph.SearchMeasure
        { visited := Function.update (fun _ => false) graph.entry_block true
          visiting := Function.update (fun _ => false) graph.entry_block true
          successors_visited := fun _ => 0
          worklist := [graph.entry_block]
          back_edges := fun _ => [] } =
      graph.TraversalBound := by
  refine congrArg List.sum (List.map_congr_left fun block _ => ?_)
  by_cases isEntry : block = graph.entry_block
  · simp [RemainingWork, isEntry]
  · simp [RemainingWork, Function.update_of_ne isEntry]

theorem SearchMeasure_lt {search' : BackEdgeSearch} {current : Nat}
    (currentLt : current < graph.num_blocks)
    (others : ∀ block, block ≠ current →
      graph.RemainingWork search' block ≤ graph.RemainingWork search block)
    (less : graph.RemainingWork search' current < graph.RemainingWork search current) :
    graph.SearchMeasure search' < graph.SearchMeasure search := by
  refine List.sum_lt_sum _ _ (fun block _ => ?_) ⟨current, List.mem_range.mpr currentLt, less⟩
  by_cases isCurrent : block = current
  · exact isCurrent ▸ less.le
  · exact others block isCurrent

/-- Examining one more successor of the top of the stack does one unit of
its work. -/
theorem RemainingWork_advance {search' : BackEdgeSearch} {current : Nat}
    (visited : search'.visited current = true) (visiting : search'.visiting current = true)
    (wasVisited : search.visited current = true) (wasVisiting : search.visiting current = true)
    (examined : search'.successors_visited current = search.successors_visited current + 1)
    (remaining : search.successors_visited current < (graph.successors current).length) :
    graph.RemainingWork search' current < graph.RemainingWork search current := by
  simp only [RemainingWork, visited, visiting, wasVisited, wasVisiting, examined, if_true]
  omega

/-- Each iteration on a nonempty stack does one unit of the remaining work:
that of the block on top of the stack. -/
theorem SearchMeasure_step (invariant : SearchInvariant graph search treeParent finished)
    {current : Nat} {rest : List Nat} (top : search.worklist = current :: rest) :
    graph.SearchMeasure (graph.FindBackEdgesStep search) < graph.SearchMeasure search := by
  have currentVisited := invariant.visited_of_mem (top ▸ List.mem_cons_self)
  have currentVisiting := (invariant.visiting_iff current).mpr (top ▸ List.mem_cons_self)
  have currentLt := invariant.visited_lt current currentVisited
  unfold FindBackEdgesStep
  rw [top]
  dsimp only
  generalize (graph.successors current)[search.successors_visited current]! = successor
  split_ifs with done visiting unvisited
  · refine SearchMeasure_lt currentLt (fun block isCurrent => ?_) ?_
    · simp [RemainingWork, Function.update_of_ne isCurrent]
    · simp [RemainingWork, currentVisited, currentVisiting]
  all_goals
    have remaining : search.successors_visited current < (graph.successors current).length :=
      Nat.lt_of_le_of_ne (invariant.successors_visited_le current) done
  · refine SearchMeasure_lt currentLt (fun block isCurrent => ?_)
      (RemainingWork_advance currentVisited currentVisiting currentVisited currentVisiting
        (Function.update_self _ _ _) remaining)
    simp [RemainingWork, Function.update_of_ne isCurrent]
  · rw [Bool.not_eq_eq_eq_not, Bool.not_true] at unvisited
    have notSuccessor : current ≠ successor := fun same => by
      rw [← same, currentVisited] at unvisited
      cases unvisited
    refine SearchMeasure_lt currentLt (fun block isCurrent => ?_)
      (RemainingWork_advance (by simp [Function.update_of_ne notSuccessor, currentVisited])
        (by simp [Function.update_of_ne notSuccessor, currentVisiting]) currentVisited currentVisiting
        (Function.update_self _ _ _) remaining)
    by_cases isSuccessor : block = successor
    · -- the pushed block trades its work while unvisited for its work on the stack
      subst block
      simp [RemainingWork, Function.update_of_ne isCurrent, unvisited,
        invariant.unvisited _ unvisited]
    · simp [RemainingWork, Function.update_of_ne isCurrent, Function.update_of_ne isSuccessor]
  · refine SearchMeasure_lt currentLt (fun block isCurrent => ?_)
      (RemainingWork_advance currentVisited currentVisiting currentVisited currentVisiting
        (Function.update_self _ _ _) remaining)
    simp [RemainingWork, Function.update_of_ne isCurrent]

/-- With fuel for its remaining work, the loop runs until the stack is
empty, and keeps the invariant. -/
theorem FindBackEdgesLoop_spec (wellFormed : graph.WellFormed) (fuel : Nat) :
    ∀ (search : BackEdgeSearch) (treeParent : Nat → Option Nat) (finished : List Nat),
      SearchInvariant graph search treeParent finished → graph.SearchMeasure search ≤ fuel →
      ∃ result treeParent' finished', graph.FindBackEdgesLoop fuel search = some result ∧
        result.worklist = [] ∧ SearchInvariant graph result treeParent' finished' := by
  induction fuel with
  | zero =>
      intro search treeParent finished invariant enough
      cases top : search.worklist with
      | nil => exact ⟨search, treeParent, finished, by simp [FindBackEdgesLoop, top], top, invariant⟩
      | cons current rest =>
          have less := SearchMeasure_step invariant top
          omega
  | succ fuel inductionHypothesis =>
      intro search treeParent finished invariant enough
      cases top : search.worklist with
      | nil => exact ⟨search, treeParent, finished, by simp [FindBackEdgesLoop, top], top, invariant⟩
      | cons current rest =>
          have less := SearchMeasure_step invariant top
          obtain ⟨treeParent', finished', invariant'⟩ := invariant.step wellFormed
          obtain ⟨result, treeParent'', finished'', loop, empty, final⟩ :=
            inductionHypothesis _ treeParent' finished' invariant' (by omega)
          exact ⟨result, treeParent'', finished'', by simp [FindBackEdgesLoop, top, loop], empty, final⟩

namespace SearchInvariant

section Final

variable (invariant : SearchInvariant graph search treeParent finished)
  (empty : search.worklist = [])
include invariant

/-- Tree paths are paths of forward edges. -/
theorem forward_of_above {a b : Nat} (above : Above treeParent a b) :
    Relation.ReflTransGen (graph.ForwardEdge search.back_edges) a b := by
  induction above with
  | refl => exact .refl
  | @up b p hasParent _ inductionHypothesis =>
      obtain ⟨treeEdge, notBack⟩ := invariant.tree_edge b p hasParent
      have parentLt := invariant.visited_lt p (invariant.visited_of_examined treeEdge)
      exact .tail inductionHypothesis ⟨parentLt, List.mem_of_mem_take treeEdge, notBack⟩

include empty

/-- Once the stack is empty, every visited block is finished. -/
theorem finished_of_visited {block : Nat} (visited : search.visited block = true) :
    block ∈ finished := by
  have member := (invariant.visited_iff block).mp visited
  rwa [empty, List.mem_nil_iff, false_or] at member

/-- Once the stack is empty, all successors of a visited block have been
examined. -/
theorem examined_of_visited {block successor : Nat} (visited : search.visited block = true)
    (isEdge : successor ∈ graph.successors block) :
    successor ∈ (graph.successors block).take (search.successors_visited block) := by
  rw [invariant.finished_all block (invariant.finished_of_visited empty visited), List.take_length]
  exact isEdge

/-- Once the stack is empty, every block reachable from the entry block has
been visited. -/
theorem visited_of_reachable {block : Nat}
    (reachable : Relation.ReflTransGen (Graph.Edge graph.successors) graph.entry_block block) :
    search.visited block = true := by
  induction reachable with
  | refl => exact invariant.entry_visited
  | tail _ edge inductionHypothesis =>
      exact invariant.examined_visited _ _ (invariant.examined_of_visited empty inductionHypothesis edge)

/-- Once the stack is empty, the recorded back edges have the properties
`BackEdges`. -/
theorem backEdges (wellFormed : graph.WellFormed) : graph.BackEdges search.back_edges where
  source_lt source header back := invariant.visited_lt source (invariant.back_edge source header back).1
  count source header back := by
    have sourceFinished := invariant.finished_of_visited empty (invariant.back_edge source header back).1
    rw [invariant.back_count source header back, invariant.finished_all source sourceFinished,
      List.take_length]
  header_reaches source header back := invariant.forward_of_above (invariant.back_edge source header back).2
  ranked := by
    refine ⟨finished.idxOf, fun block successor ⟨blockLt, isEdge, notBack⟩ => ?_⟩
    have visited := invariant.visited_of_reachable empty (wellFormed.reachable block blockLt)
    rcases invariant.finish_order block successor (invariant.examined_of_visited empty visited isEdge)
      notBack with ⟨_, before⟩ | ⟨onStack, _⟩
    · exact before (invariant.finished_of_visited empty visited)
    · rw [empty] at onStack
      cases onStack
  entry_reaches block blockLt :=
    invariant.forward_of_above (invariant.reached block
      (invariant.visited_of_reachable empty (wellFormed.reachable block blockLt)))

end Final

end SearchInvariant

/-- On a well-formed graph `FindBackEdges` finishes, having visited every
block, with back edges that have the properties `BackEdges`. -/
theorem FindBackEdges_spec (wellFormed : graph.WellFormed) :
    ∃ search, graph.FindBackEdges = some search ∧
      (∀ block, search.visited block = true ↔ block < graph.num_blocks) ∧
      graph.BackEdges search.back_edges := by
  obtain ⟨search, treeParent, finished, loop, empty, invariant⟩ :=
    FindBackEdgesLoop_spec wellFormed graph.TraversalBound _ _ _
      (SearchInvariant.initial wellFormed) SearchMeasure_initial.le
  refine ⟨search, loop, fun block => ⟨invariant.visited_lt block, fun blockLt => ?_⟩,
    invariant.backEdges empty wellFormed⟩
  exact invariant.visited_of_reachable empty (wellFormed.reachable block blockLt)

end HGraph

end ArtRuntime.Optimizing
