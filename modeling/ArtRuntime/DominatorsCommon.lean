import ArtRuntime.Dominators

namespace ArtRuntime.Optimizing

open ArtRuntime.Graph

/-!
# `CommonDominator` and `UpdateDominatorOfSuccessor`

On a dominator map whose chains all end, `ChainLength` counts a chain,
`ForPair` finds the nearest common ancestor of two blocks under the entry
block, and `HBasicBlock::Dominates` decides `Above`.

`DominatorTree` is what both loops of `ComputeDominanceInformation` keep true
of the dominator map: every chain ends, every dominator is a block of the
tree under the entry block, and every strict dominator of a block in the
graph dominates the block's dominator.  `UpdateDominatorOfSuccessor_spec`
says what one update does along an edge from a block of the tree, and that
it keeps `DominatorTree`.
-/

variable {dominator : Nat → Option Nat}

namespace CommonDominator

theorem ChainLength_of_depth {block depth : Nat} (hasDepth : DepthIs dominator block depth) :
    ∀ {fuel}, depth < fuel → ChainLength dominator fuel (some block) = some (depth + 1) := by
  induction hasDepth with
  | root isRoot =>
      intro fuel enough
      obtain ⟨fuel, rfl⟩ : ∃ rest, fuel = rest + 1 := ⟨fuel - 1, by omega⟩
      simp [ChainLength, isRoot]
  | up hasParent _ inductionHypothesis =>
      intro fuel enough
      obtain ⟨fuel, rfl⟩ : ∃ rest, fuel = rest + 1 := ⟨fuel - 1, by omega⟩
      rw [ChainLength, hasParent, inductionHypothesis (by omega), Option.map_some]

theorem WalkUpTo_eq : ∀ (chain_length chain_length2 : Nat) (block : Option Nat),
    WalkUpTo dominator chain_length chain_length2 block =
      block.bind (Ancestor dominator (chain_length - chain_length2))
  | 0, _, block => by
      rw [Nat.zero_sub]
      cases block <;> rfl
  | chain_length + 1, chain_length2, block => by
      rw [WalkUpTo]
      split
      · rw [WalkUpTo_eq chain_length chain_length2 (block.bind dominator),
          show chain_length + 1 - chain_length2 = chain_length - chain_length2 + 1 by omega]
        cases block <;> rfl
      · rw [show chain_length + 1 - chain_length2 = 0 by omega]
        cases block <;> rfl

/-- Walking up together from two blocks at one depth with a common ancestor
stops at their nearest common ancestor. -/
theorem WalkTogether_nearest {first second common depth : Nat}
    (firstDepth : DepthIs dominator first depth) (secondDepth : DepthIs dominator second depth)
    (firstAbove : Above dominator common first) (secondAbove : Above dominator common second) :
    ∀ chain_length, depth < chain_length →
      ∃ nearest, WalkTogether dominator chain_length (some first) (some second) = some (some nearest) ∧
        NearestCommonAbove dominator nearest first second := by
  induction firstDepth generalizing second with
  | @root first isRoot =>
      intro chain_length _
      have same : first = second := by
        cases secondDepth with
        | root secondRoot =>
            rw [← firstAbove.eq_of_root isRoot, secondAbove.eq_of_root secondRoot]
      subst same
      refine ⟨first, ?_, .self first⟩
      cases chain_length <;> simp [WalkTogether]
  | @up first firstParent depth firstHas firstParentDepth inductionHypothesis =>
      intro chain_length enough
      obtain ⟨chain_length, rfl⟩ : ∃ rest, chain_length = rest + 1 := ⟨chain_length - 1, by omega⟩
      by_cases same : first = second
      · subst same
        exact ⟨first, by simp [WalkTogether], .self first⟩
      cases secondDepth with
      | @up _ secondParent _ secondHas secondParentDepth =>
          -- the common ancestor is strictly above both, so above both parents
          have notFirst : common ≠ first := by
            rintro rfl
            exact same (secondAbove.eq_of_depth (.up firstHas firstParentDepth)
              (.up secondHas secondParentDepth))
          have notSecond : common ≠ second := by
            rintro rfl
            exact same (firstAbove.eq_of_depth (.up secondHas secondParentDepth)
              (.up firstHas firstParentDepth)).symm
          obtain ⟨_, firstHas', aboveFirstParent⟩ := firstAbove.parent_of_ne notFirst
          obtain ⟨_, secondHas', aboveSecondParent⟩ := secondAbove.parent_of_ne notSecond
          rw [firstHas, Option.some.injEq] at firstHas'
          rw [secondHas, Option.some.injEq] at secondHas'
          subst firstHas' secondHas'
          obtain ⟨nearest, walks, isNearest⟩ := inductionHypothesis secondParentDepth aboveFirstParent
            aboveSecondParent chain_length (by omega)
          refine ⟨nearest, ?_, isNearest.of_parents same firstHas secondHas
            (.up firstHas firstParentDepth) (.up secondHas secondParentDepth)⟩
          rw [WalkTogether, if_neg (by simpa using same), Option.bind_some, Option.bind_some,
            firstHas, secondHas, walks]

/-- `ForPair` of two blocks under a common block, with chains shorter than
`fuel`, is their nearest common ancestor. -/
theorem ForPair_nearest {block1 block2 depth1 depth2 fuel common : Nat}
    (depth1_ : DepthIs dominator block1 depth1) (depth2_ : DepthIs dominator block2 depth2)
    (enough1 : depth1 < fuel) (enough2 : depth2 < fuel)
    (above1 : Above dominator common block1) (above2 : Above dominator common block2) :
    ∃ nearest, ForPair dominator fuel block1 block2 = some (some nearest) ∧
      NearestCommonAbove dominator nearest block1 block2 := by
  unfold ForPair
  rw [ChainLength_of_depth depth1_ enough1]
  simp only [Option.bind_eq_bind, Option.bind_some]
  by_cases same : block2 = block1
  · subst same
    exact ⟨block2, by simp, .self block2⟩
  rw [if_neg same, ChainLength_of_depth depth2_ enough2, Option.bind_some, WalkUpTo_eq,
    WalkUpTo_eq, Option.bind_some, Option.bind_some]
  rcases Nat.le_total depth1 depth2 with le | le
  · -- `block2` walks up to the depth of `block1`
    obtain ⟨lifted, found, liftedAbove, liftedDepth⟩ := depth2_.ancestor (depth2 - depth1) (by omega)
    rw [show depth2 - (depth2 - depth1) = depth1 by omega] at liftedDepth
    obtain ⟨commonDepth, commonLe, commonHasDepth, _⟩ := above1.depth_le depth1_
    have commonAboveLifted := above2.of_depth_le liftedAbove commonHasDepth liftedDepth commonLe
    obtain ⟨nearest, walks, isNearest⟩ := WalkTogether_nearest liftedDepth depth1_ commonAboveLifted
      above1 (min (depth2 + 1) (depth1 + 1)) (by omega)
    refine ⟨nearest, ?_, (isNearest.of_ancestor ?_ depth1_ found).symm⟩
    · rw [show depth2 + 1 - (depth1 + 1) = depth2 - depth1 by omega, found,
        show depth1 + 1 - (depth2 + 1) = 0 by omega]
      exact walks
    · rwa [show depth1 + (depth2 - depth1) = depth2 by omega]
  · -- `block1` walks up to the depth of `block2`
    obtain ⟨lifted, found, liftedAbove, liftedDepth⟩ := depth1_.ancestor (depth1 - depth2) (by omega)
    rw [show depth1 - (depth1 - depth2) = depth2 by omega] at liftedDepth
    obtain ⟨commonDepth, commonLe, commonHasDepth, _⟩ := above2.depth_le depth2_
    have commonAboveLifted := above1.of_depth_le liftedAbove commonHasDepth liftedDepth commonLe
    obtain ⟨nearest, walks, isNearest⟩ := WalkTogether_nearest depth2_ liftedDepth above2
      commonAboveLifted (min (depth2 + 1) (depth1 + 1)) (by omega)
    refine ⟨nearest, ?_, isNearest.symm.of_ancestor ?_ depth2_ found⟩
    · rw [show depth2 + 1 - (depth1 + 1) = 0 by omega,
        show depth1 + 1 - (depth2 + 1) = depth1 - depth2 by omega, found]
      exact walks
    · rwa [show depth2 + (depth1 - depth2) = depth1 by omega]

end CommonDominator

namespace HBasicBlock

/-- On a chain shorter than `fuel`, `Dominates` returns, and returns true
exactly when the block is above the other block. -/
theorem Dominates_of_depth {block other depth : Nat} (hasDepth : DepthIs dominator other depth) :
    ∀ fuel, depth < fuel → ∃ result, Dominates dominator block fuel (some other) = some result ∧
      (result = true ↔ Above dominator block other) := by
  induction hasDepth with
  | @root other isRoot =>
      intro fuel enough
      obtain ⟨fuel, rfl⟩ : ∃ rest, fuel = rest + 1 := ⟨fuel - 1, by omega⟩
      by_cases found : other = block
      · exact ⟨true, by simp [Dominates, found], by simp [found, Above.refl]⟩
      · refine ⟨false, by simp [Dominates, found, isRoot], ?_⟩
        simp only [Bool.false_eq_true, false_iff]
        exact fun above => found (above.eq_of_root isRoot).symm
  | @up other p _ hasParent _ inductionHypothesis =>
      intro fuel enough
      obtain ⟨fuel, rfl⟩ : ∃ rest, fuel = rest + 1 := ⟨fuel - 1, by omega⟩
      by_cases found : other = block
      · exact ⟨true, by simp [Dominates, found], by simp [found, Above.refl]⟩
      · obtain ⟨result, returns, correct⟩ := inductionHypothesis fuel (by omega)
        refine ⟨result, by simp only [Dominates, found, if_false, hasParent, returns], ?_⟩
        rw [correct]
        exact ⟨.up hasParent, fun above => by
          obtain ⟨p', hasParent', aboveParent⟩ := above.parent_of_ne (Ne.symm found)
          rw [hasParent, Option.some.injEq] at hasParent'
          exact hasParent' ▸ aboveParent⟩

end HBasicBlock

/-- A block of the tree: the entry block, or a block with a dominator. -/
def InTree (graph : HGraph) (dominator : Nat → Option Nat) (block : Nat) : Prop :=
  block = graph.entry_block ∨ dominator block ≠ none

/-- What the loops of `ComputeDominanceInformation` keep true of the
dominator map: the entry block has no dominator, dominators are blocks, each
dominator is in the tree, every chain ends, and every strict dominator of a
block in the graph dominates the block's dominator. -/
structure DominatorTree (graph : HGraph) (dominator : Nat → Option Nat) : Prop where
  entry_none : dominator graph.entry_block = none
  lt : ∀ block parent, dominator block = some parent →
    block < graph.num_blocks ∧ parent < graph.num_blocks
  parent_in_tree : ∀ block parent, dominator block = some parent → InTree graph dominator parent
  depth : ∀ block, ∃ depth, DepthIs dominator block depth
  dominated : ∀ block parent, dominator block = some parent → ∀ other, other ≠ block →
    Graph.Dominates graph.successors graph.entry_block other block →
    Graph.Dominates graph.successors graph.entry_block other parent

namespace DominatorTree

variable {graph : HGraph}

theorem initial : DominatorTree graph fun _ => none where
  entry_none := rfl
  lt := fun _ _ absent => by cases absent
  parent_in_tree := fun _ _ absent => by cases absent
  depth := fun _ => ⟨0, .root rfl⟩
  dominated := fun _ _ absent => by cases absent

variable (tree : DominatorTree graph dominator)
include tree

/-- The entry block is above every block of the tree. -/
theorem entry_above {block : Nat} (inTree : InTree graph dominator block) :
    Above dominator graph.entry_block block := by
  obtain ⟨depth, hasDepth⟩ := tree.depth block
  induction hasDepth with
  | root isRoot =>
      rcases inTree with isEntry | hasDominator
      · exact isEntry ▸ .refl
      · exact absurd isRoot hasDominator
  | up hasParent _ inductionHypothesis =>
      exact .up hasParent (inductionHypothesis (tree.parent_in_tree _ _ hasParent))

theorem lt_of_above {above block : Nat} (isAbove : Above dominator above block)
    (blockLt : block < graph.num_blocks) : above < graph.num_blocks := by
  induction isAbove with
  | refl => exact blockLt
  | up hasParent _ inductionHypothesis => exact inductionHypothesis (tree.lt _ _ hasParent).2

/-- A chain from a block is shorter than the number of blocks. -/
theorem depth_lt {block depth : Nat} (blockLt : block < graph.num_blocks)
    (hasDepth : DepthIs dominator block depth) : depth < graph.num_blocks := by
  have := hasDepth.lt_card
    (fun _ _ _ hasParent => Finset.mem_range.mpr (tree.lt _ _ hasParent).2)
    (Finset.mem_range.mpr blockLt)
  rwa [Finset.card_range] at this

/-- A block of the tree that is above a block of the tree is in the tree. -/
theorem inTree_of_above {above block : Nat} (isAbove : Above dominator above block)
    (inTree : InTree graph dominator block) : InTree graph dominator above := by
  by_cases hasDominator : dominator above = none
  · -- a root above a block of the tree is the entry block
    rcases (tree.entry_above inTree).total isAbove with entryAbove | aboveEntry
    · exact .inl (entryAbove.eq_of_root hasDominator).symm
    · exact .inl (aboveEntry.eq_of_root tree.entry_none)
  · exact .inr hasDominator

/-- No block is above its own dominator. -/
theorem ne_of_above_parent {block parent above : Nat} (hasParent : dominator block = some parent)
    (isAbove : Above dominator above parent) : above ≠ block := by
  rintro rfl
  obtain ⟨_, parentDepth⟩ := tree.depth parent
  obtain ⟨_, blockDepth⟩ := tree.depth above
  exact blockDepth.parent_ne hasParent (isAbove.antisymm (.of_parent hasParent) parentDepth).symm

end DominatorTree

/-- The dominator that `UpdateDominatorOfSuccessor(block, successor)` gives
`successor`: `block` when it has none, and otherwise the nearest common
ancestor of its dominator and `block`. -/
structure NewDominator (dominator : Nat → Option Nat) (block successor newDominator : Nat) :
    Prop where
  of_none : dominator successor = none → newDominator = block
  of_some : ∀ old, dominator successor = some old →
    NearestCommonAbove dominator newDominator old block

section Update

variable {graph : HGraph} (wellFormed : graph.WellFormed) (tree : DominatorTree graph dominator)
  {block successor : Nat} (blockLt : block < graph.num_blocks)
  (blockInTree : InTree graph dominator block) (edge : successor ∈ graph.successors block)
include wellFormed tree blockLt blockInTree edge

omit wellFormed edge in
/-- From a block of the tree, `UpdateDominatorOfSuccessor` returns, and sets
the dominator of the successor to its new dominator. -/
theorem UpdateDominatorOfSuccessor_spec :
    ∃ newDominator, NewDominator dominator block successor newDominator ∧
      UpdateDominatorOfSuccessor graph.num_blocks dominator block successor =
        some (decide (dominator successor ≠ some newDominator),
          Function.update dominator successor (some newDominator)) := by
  unfold UpdateDominatorOfSuccessor
  cases hasDominator : dominator successor with
  | none =>
      refine ⟨block, ⟨fun _ => rfl, fun _ absent => ?_⟩, by simp⟩
      rw [hasDominator] at absent
      cases absent
  | some old =>
      obtain ⟨oldDepth, oldHasDepth⟩ := tree.depth old
      obtain ⟨blockDepth, blockHasDepth⟩ := tree.depth block
      have oldLt := (tree.lt _ _ hasDominator).2
      obtain ⟨nearest, pairs, isNearest⟩ := CommonDominator.ForPair_nearest oldHasDepth
        blockHasDepth (tree.depth_lt oldLt oldHasDepth) (tree.depth_lt blockLt blockHasDepth)
        (tree.entry_above (tree.parent_in_tree _ _ hasDominator)) (tree.entry_above blockInTree)
      refine ⟨nearest, ⟨fun absent => ?_, fun _ same => ?_⟩, ?_⟩
      · rw [hasDominator] at absent
        cases absent
      · rw [hasDominator, Option.some.injEq] at same
        exact same ▸ isNearest
      · simp only [pairs, Option.bind_eq_bind, Option.bind_some]
        by_cases unchanged : old = nearest
        · subst unchanged
          simp [← hasDominator]
        · simp [unchanged]

variable {newDominator : Nat} (new : NewDominator dominator block successor newDominator)
include new

omit wellFormed tree blockLt blockInTree edge in
theorem NewDominator.above : Above dominator newDominator block := by
  cases hasDominator : dominator successor with
  | none => exact new.of_none hasDominator ▸ .refl
  | some old => exact (new.of_some old hasDominator).above_second

theorem NewDominator.ne : newDominator ≠ successor := by
  cases hasDominator : dominator successor with
  | none =>
      rw [new.of_none hasDominator]
      rintro rfl
      rcases blockInTree with isEntry | hasOne
      · exact wellFormed.entry_no_predecessor _ blockLt (isEntry ▸ edge)
      · exact hasOne hasDominator
  | some old =>
      exact tree.ne_of_above_parent hasDominator (new.of_some old hasDominator).above_first

/-- The update keeps `DominatorTree`. -/
theorem DominatorTree.update :
    DominatorTree graph (Function.update dominator successor (some newDominator)) := by
  have successorLt := wellFormed.successors_lt block blockLt successor edge
  have notEntry : graph.entry_block ≠ successor := fun same =>
    wellFormed.entry_no_predecessor block blockLt (same ▸ edge)
  have newAbove := new.above
  have newInTree := tree.inTree_of_above newAbove blockInTree
  have newNe := new.ne wellFormed tree blockLt blockInTree edge
  -- a block keeps its dominator or gets one
  have keepsInTree : ∀ b, InTree graph dominator b →
      InTree graph (Function.update dominator successor (some newDominator)) b := by
    intro b inTree
    by_cases moved : b = successor
    · exact .inr (by rw [moved, Function.update_self]; simp)
    · rcases inTree with isEntry | hasOne
      · exact .inl isEntry
      · exact .inr (by rwa [Function.update_of_ne moved])
  constructor
  · rw [Function.update_of_ne notEntry]
    exact tree.entry_none
  · intro b p hasParent
    by_cases moved : b = successor
    · rw [moved, Function.update_self, Option.some.injEq] at hasParent
      exact ⟨moved ▸ successorLt, hasParent ▸ tree.lt_of_above newAbove blockLt⟩
    · rw [Function.update_of_ne moved] at hasParent
      exact tree.lt b p hasParent
  · intro b p hasParent
    by_cases moved : b = successor
    · rw [moved, Function.update_self, Option.some.injEq] at hasParent
      exact hasParent ▸ keepsInTree _ newInTree
    · rw [Function.update_of_ne moved] at hasParent
      exact keepsInTree _ (tree.parent_in_tree b p hasParent)
  · intro b
    obtain ⟨depth, hasDepth⟩ := tree.depth b
    cases hasDominator : dominator successor with
    | none =>
        -- `successor` was a root other than the entry block, so not above `block`
        have notBelow : ¬ Above dominator successor block := by
          intro below
          rcases (tree.entry_above blockInTree).total below with entryAbove | aboveEntry
          · exact notEntry (entryAbove.eq_of_root hasDominator)
          · exact notEntry (aboveEntry.eq_of_root tree.entry_none).symm
        obtain ⟨blockDepth, blockHasDepth⟩ := tree.depth block
        rw [new.of_none hasDominator]
        exact DepthIs.of_attach hasDominator notBelow blockHasDepth hasDepth
    | some old =>
        obtain ⟨depth', _, hasDepth'⟩ :=
          DepthIs.of_update hasDominator (new.of_some old hasDominator).above_first depth hasDepth
        exact ⟨depth', hasDepth'⟩
  · intro b p hasParent other differs dominates
    by_cases moved : b = successor
    · rw [moved, Function.update_self, Option.some.injEq] at hasParent
      subst hasParent moved
      have dominatesBlock := dominates.of_edge differs edge
      cases hasDominator : dominator b with
      | none => exact new.of_none hasDominator ▸ dominatesBlock
      | some old =>
          exact Dominates.nearest tree.entry_none tree.dominated tree.depth
            (tree.entry_above (tree.parent_in_tree _ _ hasDominator)) (tree.entry_above blockInTree)
            (new.of_some old hasDominator) (tree.dominated _ _ hasDominator other differs dominates)
            dominatesBlock
    · rw [Function.update_of_ne moved] at hasParent
      exact tree.dominated b p hasParent other differs dominates

omit wellFormed tree blockLt blockInTree edge in
/-- After the update, the new dominator of `successor` is above `block`. -/
theorem NewDominator.above_update :
    Above (Function.update dominator successor (some newDominator)) newDominator block :=
  new.above.update_new

omit wellFormed tree blockLt blockInTree edge new in
/-- Blocks of the tree stay in the tree. -/
theorem NewDominator.inTree_update {b : Nat} (inTree : InTree graph dominator b) :
    InTree graph (Function.update dominator successor (some newDominator)) b := by
  by_cases moved : b = successor
  · exact .inr (by rw [moved, Function.update_self]; simp)
  · rcases inTree with isEntry | hasOne
    · exact .inl isEntry
    · exact .inr (by rwa [Function.update_of_ne moved])

omit blockInTree in
/-- The update gives no block of the tree a new ancestor. -/
theorem NewDominator.above_of_update {a b : Nat} (inTree : InTree graph dominator b)
    (above : Above (Function.update dominator successor (some newDominator)) a b) :
    Above dominator a b := by
  cases hasDominator : dominator successor with
  | none =>
      -- `successor` was a root other than the entry block, so no block of the tree is below it
      have notEntry : graph.entry_block ≠ successor := fun same =>
        wellFormed.entry_no_predecessor block blockLt (same ▸ edge)
      have notBelow : ¬ Above dominator successor b := by
        intro below
        rcases (tree.entry_above inTree).total below with entryAbove | aboveEntry
        · exact notEntry (entryAbove.eq_of_root hasDominator)
        · exact notEntry (aboveEntry.eq_of_root tree.entry_none).symm
      exact (Above.update_iff_of_not_above notBelow _).mp above
  | some old =>
      exact Above.of_update hasDominator (new.of_some old hasDominator).above_first above

omit wellFormed blockLt blockInTree edge in
/-- Along an edge from a block below `successor`, the update changes nothing. -/
theorem NewDominator.eq_of_below {old : Nat} (hasDominator : dominator successor = some old)
    (below : Above dominator successor block) : newDominator = old := by
  obtain ⟨_, oldDepth⟩ := tree.depth old
  exact (new.of_some old hasDominator).eq_of_above ((Above.of_parent hasDominator).trans below) oldDepth

end Update

end ArtRuntime.Optimizing
