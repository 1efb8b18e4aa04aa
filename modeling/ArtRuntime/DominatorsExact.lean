import ArtRuntime.DominatorsFixPoint
import Mathlib.Tactic.IntervalCases

namespace ArtRuntime.Optimizing

open ArtRuntime.Graph

/-!
# `ComputeDominanceInformation` computes the dominators

Both loops keep `DominatorTree`, and they end with the dominator of the
target of every edge above its source: the first loop when no back edge
escapes its header, the fix-point iteration otherwise.  On a dominator map
with these two properties the blocks above a block are exactly its
dominators (`Graph.above_iff_dominates`), so the dominator of each block is
its immediate dominator and `HBasicBlock::Dominates` decides dominance.
-/

namespace HGraph

variable {graph : HGraph}

/-- What `ComputeDominanceInformation` gives: the entry block has no
dominator, every other block has its immediate dominator, the reverse post
order lists every block once and each after the blocks with forward edges
into it, and `HBasicBlock::Dominates` decides dominance between blocks. -/
structure ExactDominance (graph : HGraph) (back_edges : Nat → List Nat)
    (dominator : Nat → Option Nat) (reverse_post_order : List Nat) : Prop where
  entry_none : dominator graph.entry_block = none
  immediate : ∀ block < graph.num_blocks, block ≠ graph.entry_block →
    ∃ immediateDominator, dominator block = some immediateDominator ∧
      IsImmediateDominator graph.successors graph.entry_block immediateDominator block
  order_nodup : reverse_post_order.Nodup
  mem_order : ∀ block, block ∈ reverse_post_order ↔ block < graph.num_blocks
  after_predecessors : ∀ source < graph.num_blocks, ∀ block ∈ graph.successors source,
    source ∉ back_edges block →
      reverse_post_order.idxOf source < reverse_post_order.idxOf block
  dominates : ∀ a < graph.num_blocks, ∀ b < graph.num_blocks, ∃ result,
    HBasicBlock.Dominates dominator a graph.num_blocks (some b) = some result ∧
      (result = true ↔ Graph.Dominates graph.successors graph.entry_block a b)

/-- Blocks reachable from the entry block are blocks. -/
theorem WellFormed.lt_of_reachable (wellFormed : graph.WellFormed) {block : Nat}
    (reachable : Relation.ReflTransGen (Graph.Edge graph.successors) graph.entry_block block) :
    block < graph.num_blocks := by
  induction reachable with
  | refl => exact wellFormed.entry_lt
  | tail _ edge inductionHypothesis => exact wellFormed.successors_lt _ inductionHypothesis _ edge

/-- Both loops of `ComputeDominanceInformation` succeed: the reverse post
order is that of the first loop, and the dominators form a tree holding every
block, stable along every edge. -/
theorem ComputeDominanceInformation_spec (wellFormed : graph.WellFormed)
    {back_edges : Nat → List Nat} (backEdges : graph.BackEdges back_edges) :
    ∃ dominator reverse_post_order first,
      graph.ComputeDominanceInformation back_edges = some (dominator, reverse_post_order) ∧
      FirstPass graph back_edges first reverse_post_order ∧ DominatorTree graph dominator ∧
      (∀ block < graph.num_blocks, InTree graph dominator block) ∧ graph.Stable dominator := by
  obtain ⟨state, loop, firstPass⟩ := DominanceLoop_firstPass wellFormed backEdges
  obtain ⟨must, mustRun, notBroken⟩ := MustRunFixPoint_spec backEdges firstPass.tree
  cases must with
  | false =>
      -- no back edge escapes its header: the first loop's dominators are stable
      have stable := firstPass.stable_or_broken.resolve_right fun ⟨source, header, back, notAbove⟩ =>
        notAbove (notBroken rfl source header back)
      exact ⟨state.dominator, state.reverse_post_order, state.dominator,
        by simp [ComputeDominanceInformation, loop, mustRun], firstPass, firstPass.tree,
        firstPass.in_tree, stable⟩
  | true =>
      obtain ⟨result, fixPoint, tree, inTree, stable⟩ :=
        FixPoint_spec wellFormed (fun block member => (firstPass.mem_order block).mp member)
          (graph.num_blocks * graph.num_blocks + 1) state.dominator firstPass.tree firstPass.in_tree
          (Nat.lt_succ_of_le (ChainsLength_le firstPass.tree))
      refine ⟨result, state.reverse_post_order, state.dominator,
        by simp [ComputeDominanceInformation, loop, mustRun, fixPoint], firstPass, tree, inTree,
        fun block blockLt successor edge => ?_⟩
      exact stable block ((firstPass.mem_order block).mpr blockLt) successor edge

section Stable

variable {dominator : Nat → Option Nat} (wellFormed : graph.WellFormed)
  (tree : DominatorTree graph dominator)
  (inTree : ∀ block < graph.num_blocks, InTree graph dominator block)
  (stable : graph.Stable dominator)
include wellFormed tree inTree stable

/-- On a stable dominator tree, the blocks above a block are its
dominators. -/
theorem above_iff_dominates_of_stable {block : Nat} (blockLt : block < graph.num_blocks)
    (a : Nat) :
    Above dominator a block ↔ Graph.Dominates graph.successors graph.entry_block a block := by
  obtain ⟨_, hasDepth⟩ := tree.depth block
  exact above_iff_dominates tree.entry_none
    (fun source successor reachable edge =>
      stable source (wellFormed.lt_of_reachable reachable) successor edge)
    tree.dominated hasDepth (tree.entry_above (inTree block blockLt)) a

/-- On a stable dominator tree, the dominator of each block other than the
entry block is its immediate dominator. -/
theorem immediate_of_stable {block : Nat} (blockLt : block < graph.num_blocks)
    (notEntry : block ≠ graph.entry_block) :
    ∃ immediateDominator, dominator block = some immediateDominator ∧
      IsImmediateDominator graph.successors graph.entry_block immediateDominator block := by
  obtain ⟨parent, hasParent⟩ := Option.ne_none_iff_exists'.mp
    ((inTree block blockLt).resolve_left notEntry)
  obtain ⟨_, hasDepth⟩ := tree.depth block
  exact ⟨parent, hasParent, IsImmediateDominator.of_parent tree.entry_none
    (fun source successor reachable edge =>
      stable source (wellFormed.lt_of_reachable reachable) successor edge)
    tree.dominated hasParent hasDepth (tree.entry_above (inTree block blockLt))⟩

/-- On a stable dominator tree, `HBasicBlock::Dominates` decides dominance. -/
theorem Dominates_of_stable {a b : Nat} (bLt : b < graph.num_blocks) :
    ∃ result, HBasicBlock.Dominates dominator a graph.num_blocks (some b) = some result ∧
      (result = true ↔ Graph.Dominates graph.successors graph.entry_block a b) := by
  obtain ⟨_, hasDepth⟩ := tree.depth b
  obtain ⟨result, dominates, iff⟩ :=
    HBasicBlock.Dominates_of_depth hasDepth graph.num_blocks (tree.depth_lt bLt hasDepth)
  exact ⟨result, dominates,
    iff.trans (above_iff_dominates_of_stable wellFormed tree inTree stable bLt a)⟩

end Stable

/-- `ComputeDominanceInformation`, with the back edges that `FindBackEdges`
finds, terminates and computes the immediate dominator of every block, a
reverse post order of the forward edges, and dominance itself, on every
graph whose blocks are all reachable from an entry block without
predecessors, irreducible loops included. -/
theorem computeDominanceInformation_exact (graph : HGraph) (wellFormed : graph.WellFormed) :
    ∃ search dominator reverse_post_order,
      graph.FindBackEdges = some search ∧
      graph.ComputeDominanceInformation search.back_edges = some (dominator, reverse_post_order) ∧
      ExactDominance graph search.back_edges dominator reverse_post_order := by
  obtain ⟨search, found, -, backEdges⟩ := FindBackEdges_spec wellFormed
  obtain ⟨dominator, reverse_post_order, first, computed, firstPass, tree, inTree, stable⟩ :=
    ComputeDominanceInformation_spec wellFormed backEdges
  refine ⟨search, dominator, reverse_post_order, found, computed,
    { entry_none := tree.entry_none
      immediate := fun block blockLt notEntry =>
        immediate_of_stable wellFormed tree inTree stable blockLt notEntry
      order_nodup := firstPass.order_nodup
      mem_order := firstPass.mem_order
      after_predecessors := fun source sourceLt block edge notBack => ?_
      dominates := fun a _ b bLt => Dominates_of_stable wellFormed tree inTree stable bLt }⟩
  have blockLt := wellFormed.successors_lt source sourceLt block edge
  exact (firstPass.before block ((firstPass.mem_order block).mpr blockLt) source
    ⟨sourceLt, edge, notBack⟩).2

/-- An irreducible loop: blocks 1 and 2 form a loop entered from the entry
block at both of them, and block 3 leaves it.  The first loop leaves block 1
as the dominator of block 2 until the back edge from 2 to 1 is found not to
be dominated by its header, and the fix-point iteration corrects it. -/
def irreducibleLoop : HGraph where
  num_blocks := 4
  entry_block := 0
  successors
    | 0 => [1, 2]
    | 1 => [2]
    | 2 => [1, 3]
    | _ => []

theorem irreducibleLoop_wellFormed : irreducibleLoop.WellFormed where
  entry_lt := by decide
  successors_lt := by decide
  entry_no_predecessor := by decide
  reachable block blockLt := by
    have toTwo : Graph.Edge irreducibleLoop.successors 0 2 := by simp [Graph.Edge, irreducibleLoop]
    change block < 4 at blockLt
    interval_cases block
    · exact .refl
    · exact .single (by simp [Graph.Edge, irreducibleLoop])
    · exact .single toTwo
    · exact .tail (.single toTwo) (by simp [Graph.Edge, irreducibleLoop])

theorem irreducibleLoop_dominance :
    irreducibleLoop.WellFormed ∧
      ∃ search dominator reverse_post_order,
        irreducibleLoop.FindBackEdges = some search ∧
        irreducibleLoop.ComputeDominanceInformation search.back_edges =
          some (dominator, reverse_post_order) ∧
        ExactDominance irreducibleLoop search.back_edges dominator reverse_post_order :=
  ⟨irreducibleLoop_wellFormed, computeDominanceInformation_exact irreducibleLoop irreducibleLoop_wellFormed⟩

example :
    (irreducibleLoop.FindBackEdges.bind fun search =>
        irreducibleLoop.ComputeDominanceInformation search.back_edges).map
      (fun result => ((List.range 4).map result.1, result.2)) =
      some ([none, some 0, some 0, some 2], [0, 1, 2, 3]) := by
  decide

end HGraph

end ArtRuntime.Optimizing
