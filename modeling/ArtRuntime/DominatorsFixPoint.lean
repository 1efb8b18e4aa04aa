import ArtRuntime.DominatorsOrder
import ArtRuntime.OptionLoop
import Mathlib.Algebra.BigOperators.Group.Finset.Basic
import Mathlib.Algebra.Group.Action.Defs

namespace ArtRuntime.Optimizing

open ArtRuntime.Graph ArtRuntime.OptionLoop

/-!
# The fix-point iteration of `ComputeDominanceInformation`

Each pass runs `UpdateDominatorOfSuccessor` along every edge, in reverse post
order.  Every update that changes a dominator moves it to a strict ancestor
of the old one, so it shortens the chain of the block and lengthens none:
the sum of the chain lengths, at most the square of the number of blocks,
goes down with each pass that updates, as the comment of the source says.
A pass that updates nothing has found every edge with the dominator of its
target above its source.
-/

namespace HGraph

/-- The sum of the lengths of the dominator chains of all blocks. -/
def ChainsLength (graph : HGraph) (dominator : Nat → Option Nat) : Nat :=
  ∑ block ∈ Finset.range graph.num_blocks,
    (CommonDominator.ChainLength dominator graph.num_blocks (some block)).getD 0

variable {graph : HGraph} {dominator : Nat → Option Nat}

theorem ChainLength_getD (tree : DominatorTree graph dominator) {block depth : Nat}
    (blockLt : block < graph.num_blocks) (hasDepth : DepthIs dominator block depth) :
    (CommonDominator.ChainLength dominator graph.num_blocks (some block)).getD 0 = depth + 1 := by
  rw [CommonDominator.ChainLength_of_depth hasDepth (tree.depth_lt blockLt hasDepth), Option.getD_some]

/-- No chain is longer than the number of blocks. -/
theorem ChainsLength_le (tree : DominatorTree graph dominator) :
    graph.ChainsLength dominator ≤ graph.num_blocks * graph.num_blocks := by
  calc graph.ChainsLength dominator
      ≤ ∑ _block ∈ Finset.range graph.num_blocks, graph.num_blocks :=
        Finset.sum_le_sum fun block member => by
          obtain ⟨depth, hasDepth⟩ := tree.depth block
          rw [ChainLength_getD tree (Finset.mem_range.mp member) hasDepth]
          exact tree.depth_lt (Finset.mem_range.mp member) hasDepth
    _ = graph.num_blocks * graph.num_blocks := by
        rw [Finset.sum_const, Finset.card_range, smul_eq_mul]

/-- Moving the dominator of a block to a strict ancestor of the old one
shortens the chains. -/
theorem ChainsLength_update_lt (tree : DominatorTree graph dominator) {block old newDominator : Nat}
    (blockLt : block < graph.num_blocks) (hasOld : dominator block = some old)
    (newAbove : Above dominator newDominator old) (moved : newDominator ≠ old) :
    graph.ChainsLength (Function.update dominator block (some newDominator)) <
      graph.ChainsLength dominator := by
  -- the depth after the update of a block at a given depth, and its chain length
  have updated : ∀ {other depth}, other < graph.num_blocks → DepthIs dominator other depth →
      ∀ {depth'}, DepthIs (Function.update dominator block (some newDominator)) other depth' →
        (CommonDominator.ChainLength (Function.update dominator block (some newDominator))
          graph.num_blocks (some other)).getD 0 = depth' + 1 := by
    intro other depth otherLt hasDepth depth' hasDepth'
    obtain ⟨depth'', le, hasDepth''⟩ := DepthIs.of_update hasOld newAbove depth hasDepth
    rw [DepthIs.unique hasDepth' hasDepth'', CommonDominator.ChainLength_of_depth hasDepth''
      (Nat.lt_of_le_of_lt le (tree.depth_lt otherLt hasDepth)), Option.getD_some]
  refine Finset.sum_lt_sum (fun other member => ?_) ⟨block, Finset.mem_range.mpr blockLt, ?_⟩
  · obtain ⟨depth, hasDepth⟩ := tree.depth other
    obtain ⟨depth', le, hasDepth'⟩ := DepthIs.of_update hasOld newAbove depth hasDepth
    rw [updated (Finset.mem_range.mp member) hasDepth hasDepth',
      ChainLength_getD tree (Finset.mem_range.mp member) hasDepth]
    omega
  · obtain ⟨depth, hasDepth⟩ := tree.depth block
    obtain ⟨depth', less, hasDepth'⟩ := DepthIs.lt_of_update hasOld newAbove moved hasDepth
    rw [updated blockLt hasDepth hasDepth', ChainLength_getD tree blockLt hasDepth]
    omega

/-- What a pass of the fix-point iteration keeps, from the dominators
`initial` it started with: whether an update occurred says whether the
chains have become shorter or the dominators are unchanged. -/
structure PassInvariant (graph : HGraph) (initial : Nat → Option Nat) (update_occurred : Bool)
    (dominator : Nat → Option Nat) : Prop where
  tree : DominatorTree graph dominator
  in_tree : ∀ block < graph.num_blocks, InTree graph dominator block
  no_longer : graph.ChainsLength dominator ≤ graph.ChainsLength initial
  shorter : update_occurred = true → graph.ChainsLength dominator < graph.ChainsLength initial
  unchanged : update_occurred = false → dominator = initial

namespace PassInvariant

variable {initial : Nat → Option Nat}

theorem start (tree : DominatorTree graph initial)
    (inTree : ∀ block < graph.num_blocks, InTree graph initial block) :
    PassInvariant graph initial false initial where
  tree := tree
  in_tree := inTree
  no_longer := le_refl _
  shorter absurdity := by cases absurdity
  unchanged _ := rfl

/-- One call of `UpdateDominatorOfSuccessor` in a pass keeps the invariant;
if no update has occurred yet and it changes nothing, the dominator of the
successor is above the block. -/
theorem update (wellFormed : graph.WellFormed) {update_occurred : Bool}
    (invariant : PassInvariant graph initial update_occurred dominator) {block successor : Nat}
    (blockLt : block < graph.num_blocks) (edge : successor ∈ graph.successors block) :
    ∃ updated dominator',
      UpdateDominatorOfSuccessor graph.num_blocks dominator block successor =
        some (updated, dominator') ∧
      PassInvariant graph initial (update_occurred || updated) dominator' ∧
      ((update_occurred || updated) = false →
        update_occurred = false ∧ ∃ p, initial successor = some p ∧ Above initial p block) := by
  have blockInTree := invariant.in_tree block blockLt
  obtain ⟨newDominator, new, spec⟩ :=
    UpdateDominatorOfSuccessor_spec invariant.tree blockLt blockInTree
  refine ⟨_, _, spec, ?_⟩
  by_cases same : dominator successor = some newDominator
  · -- the update changes nothing
    have unchanged : Function.update dominator successor (some newDominator) = dominator := by
      rw [← same, Function.update_eq_self]
    rw [unchanged, decide_eq_false (not_not_intro same), Bool.or_false]
    refine ⟨invariant, fun notOccurred => ⟨notOccurred, newDominator, ?_, ?_⟩⟩
    · rw [← invariant.unchanged notOccurred]
      exact same
    · rw [← invariant.unchanged notOccurred]
      exact new.above
  · -- the dominator of the successor moves to a strict ancestor
    have successorLt := wellFormed.successors_lt block blockLt successor edge
    have notEntry : successor ≠ graph.entry_block := fun isEntry =>
      wellFormed.entry_no_predecessor block blockLt (isEntry ▸ edge)
    obtain ⟨old, hasOld⟩ := Option.ne_none_iff_exists'.mp
      ((invariant.in_tree successor successorLt).resolve_left notEntry)
    have moved : newDominator ≠ old := fun equal => same (equal ▸ hasOld)
    have shorter := ChainsLength_update_lt invariant.tree successorLt hasOld
      (new.of_some old hasOld).above_first moved
    rw [decide_eq_true same, Bool.or_true]
    refine ⟨⟨DominatorTree.update wellFormed invariant.tree blockLt blockInTree edge new,
      fun other otherLt => NewDominator.inTree_update (invariant.in_tree other otherLt),
      (Nat.lt_of_lt_of_le shorter invariant.no_longer).le,
      fun _ => Nat.lt_of_lt_of_le shorter invariant.no_longer,
      fun absurdity => by cases absurdity⟩, fun absurdity => by cases absurdity⟩

end PassInvariant

/-- A pass of the fix-point iteration over blocks succeeds and keeps the
invariant; if no update occurs, every edge out of the blocks has the
dominator of its target above its source. -/
theorem FixPointPass_spec (wellFormed : graph.WellFormed) {reverse_post_order : List Nat}
    (orderLt : ∀ block ∈ reverse_post_order, block < graph.num_blocks)
    (tree : DominatorTree graph dominator)
    (inTree : ∀ block < graph.num_blocks, InTree graph dominator block) :
    ∃ result, graph.FixPointPass reverse_post_order dominator = some result ∧
      PassInvariant graph dominator result.1 result.2 ∧
      (result.1 = false → ∀ block ∈ reverse_post_order, ∀ successor ∈ graph.successors block,
        ∃ p, dominator successor = some p ∧ Above dominator p block) := by
  unfold FixPointPass
  refine Exists.imp (fun result ⟨loop, holds, unset⟩ => ⟨loop, holds, fun notSet => (unset notSet).2⟩)
    (foldlM_flag _ (fun state => PassInvariant graph dominator state.1 state.2) Prod.fst _
      reverse_post_order (false, dominator) (PassInvariant.start tree inTree) ?_)
  rintro ⟨occurred, current⟩ block member holds
  have blockLt := orderLt block member
  -- the inner loop over the successors of `block`
  refine Exists.imp (fun result ⟨loop, holds, unset⟩ => ⟨loop, holds, unset⟩)
    (foldlM_flag _ (fun state => PassInvariant graph dominator state.1 state.2) Prod.fst _
      (graph.successors block) (occurred, current) holds ?_)
  rintro ⟨occurred', current'⟩ successor edge holds'
  obtain ⟨updated, next, spec, nextHolds, nextFlag⟩ := holds'.update wellFormed blockLt edge
  exact ⟨(occurred' || updated, next), by simp [spec], nextHolds, nextFlag⟩

/-- With more passes than the chains are long, the fix-point iteration
succeeds, keeps `DominatorTree`, and ends with every edge out of the blocks
having the dominator of its target above its source. -/
theorem FixPoint_spec (wellFormed : graph.WellFormed) {reverse_post_order : List Nat}
    (orderLt : ∀ block ∈ reverse_post_order, block < graph.num_blocks) :
    ∀ (fuel : Nat) (dominator : Nat → Option Nat), DominatorTree graph dominator →
      (∀ block < graph.num_blocks, InTree graph dominator block) →
      graph.ChainsLength dominator < fuel →
      ∃ result, graph.FixPoint reverse_post_order fuel dominator = some result ∧
        DominatorTree graph result ∧ (∀ block < graph.num_blocks, InTree graph result block) ∧
        ∀ block ∈ reverse_post_order, ∀ successor ∈ graph.successors block,
          ∃ p, result successor = some p ∧ Above result p block
  | 0, _, _, _, enough => absurd enough (Nat.not_lt_zero _)
  | fuel + 1, dominator, tree, inTree, enough => by
      obtain ⟨⟨occurred, next⟩, pass, holds, stable⟩ := FixPointPass_spec wellFormed orderLt tree inTree
      cases occurred with
      | true =>
          obtain ⟨result, loop, resultTree, resultInTree, resultStable⟩ :=
            FixPoint_spec wellFormed orderLt fuel next holds.tree holds.in_tree
              (Nat.lt_of_lt_of_le (holds.shorter rfl) (Nat.le_of_lt_succ enough))
          exact ⟨result, by simp [FixPoint, pass, loop], resultTree, resultInTree, resultStable⟩
      | false =>
          have unchanged : next = dominator := holds.unchanged rfl
          subst unchanged
          exact ⟨next, by simp [FixPoint, pass], tree, inTree, stable rfl⟩

/-- The header of a back edge is a block. -/
theorem BackEdges.header_lt {back_edges : Nat → List Nat} (backEdges : graph.BackEdges back_edges)
    {source header : Nat} (back : source ∈ back_edges header) : header < graph.num_blocks := by
  rcases Relation.ReflTransGen.cases_head (backEdges.header_reaches source header back) with
    same | ⟨_, forward, _⟩
  · exact same ▸ backEdges.source_lt source header back
  · exact forward.1

/-- On a dominator tree holding every block, `MustRunFixPoint` succeeds; when
it answers `false`, the header of every back edge is above its source. -/
theorem MustRunFixPoint_spec {back_edges : Nat → List Nat} (backEdges : graph.BackEdges back_edges)
    (tree : DominatorTree graph dominator) :
    ∃ must, graph.MustRunFixPoint back_edges dominator = some must ∧
      (must = false → ∀ source header, source ∈ back_edges header → Above dominator header source) := by
  -- `Dominates` answers along every back edge
  have answers : ∀ header, ∀ source ∈ back_edges header, ∃ result,
      HBasicBlock.Dominates dominator header graph.num_blocks (some source) = some result ∧
        (result = true ↔ Above dominator header source) := fun header source back => by
    obtain ⟨depth, hasDepth⟩ := tree.depth source
    exact HBasicBlock.Dominates_of_depth hasDepth graph.num_blocks
      (tree.depth_lt (backEdges.source_lt source header back) hasDepth)
  have headerAnswers : ∀ header, ∃ found,
      graph.HasBackEdgeNotDominatedByHeader dominator header (back_edges header) = some found ∧
        (found = false → ∀ source ∈ back_edges header, Above dominator header source) := by
    intro header
    obtain ⟨found, search, allFalse⟩ := @anyM_spec _
      (fun back_edge =>
        (HBasicBlock.Dominates dominator header graph.num_blocks (some back_edge)).map (!·))
      (back_edges header) fun source back => by
        obtain ⟨result, dominates, _⟩ := answers header source back
        exact ⟨!result, by rw [dominates, Option.map_some]⟩
    refine ⟨found, search, fun notFound source back => ?_⟩
    obtain ⟨result, dominates, iff⟩ := answers header source back
    have answered := allFalse notFound source back
    rw [dominates, Option.map_some, Option.some.injEq, Bool.not_eq_false'] at answered
    exact iff.mp answered
  obtain ⟨must, search, allFalse⟩ := @anyM_spec _
    (fun block =>
      if (back_edges block).isEmpty then pure false
      else graph.HasBackEdgeNotDominatedByHeader dominator block (back_edges block))
    (List.range graph.num_blocks) fun block _ => by
      split_ifs
      · exact ⟨false, rfl⟩
      · obtain ⟨found, search, _⟩ := headerAnswers block
        exact ⟨found, search⟩
  refine ⟨must, search, fun notMust source header back => ?_⟩
  have answered := allFalse notMust header (List.mem_range.mpr (backEdges.header_lt back))
  have nonempty : (back_edges header).isEmpty = false :=
    List.isEmpty_eq_false_iff.mpr (List.ne_nil_of_mem back)
  rw [nonempty, if_neg Bool.false_ne_true] at answered
  obtain ⟨found, search', onlyFalse⟩ := headerAnswers header
  rw [search', Option.some.injEq] at answered
  exact onlyFalse answered source back

end HGraph

end ArtRuntime.Optimizing
