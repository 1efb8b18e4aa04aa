import ArtRuntime.Graph.Dominance
import Mathlib.Logic.Function.Basic

namespace ArtRuntime.Optimizing

/-!
# Dominators of an `HGraph`

`HGraph::FindBackEdges`, `HGraph::ComputeDominanceInformation` with
`UpdateDominatorOfSuccessor` and `CommonDominator`, and
`HBasicBlock::Dominates`, over a graph whose blocks are named by their ids.
A block pointer that may be null is an `Option Nat`, and the arena vectors
and bit vectors indexed by block id are functions on ids.  The back of each
`worklist` vector is the head of its list.  A loop that the source runs until
a condition holds runs here for at most a given number of iterations, and
gives `none` if the condition still fails then.
-/

/-- The part of an `HGraph` that the dominance computation reads: the
number of blocks, the entry block, and the successors of each block. -/
structure HGraph where
  num_blocks : Nat
  entry_block : Nat
  successors : Nat → List Nat

namespace HGraph

/-- `GetPredecessors().size()` of `block`: one predecessor per edge into
`block`. -/
def NumberOfPredecessors (graph : HGraph) (block : Nat) : Nat :=
  ((List.range graph.num_blocks).map fun other => (graph.successors other).count block).sum

/-- A bound on the iterations of the depth-first loops: each block is pushed
once, and each of its successors is visited once. -/
def TraversalBound (graph : HGraph) : Nat :=
  ((List.range graph.num_blocks).map fun block => (graph.successors block).length + 1).sum

/-- What `BuildDominatorTree` leaves for `ComputeDominanceInformation`: the
successors of a block are blocks, the entry block has no predecessor, and
every block is reachable from it. -/
structure WellFormed (graph : HGraph) : Prop where
  entry_lt : graph.entry_block < graph.num_blocks
  successors_lt : ∀ block < graph.num_blocks, ∀ successor ∈ graph.successors block,
    successor < graph.num_blocks
  entry_no_predecessor : ∀ block < graph.num_blocks, graph.entry_block ∉ graph.successors block
  reachable : ∀ block < graph.num_blocks,
    Relation.ReflTransGen (Graph.Edge graph.successors) graph.entry_block block

/-- The state of `FindBackEdges`: the `visited` and `visiting` bit vectors,
`successors_visited`, the `worklist`, and the back edges recorded so far by
`AddBackEdge` on each loop header. -/
structure BackEdgeSearch where
  visited : Nat → Bool
  visiting : Nat → Bool
  successors_visited : Nat → Nat
  worklist : List Nat
  back_edges : Nat → List Nat

/-- One iteration of the loop of `FindBackEdges`. -/
def FindBackEdgesStep (graph : HGraph) (search : BackEdgeSearch) : BackEdgeSearch :=
  match search.worklist with
  | [] => search
  | current :: rest =>
      if search.successors_visited current = (graph.successors current).length then
        { search with visiting := Function.update search.visiting current false, worklist := rest }
      else
        let successor := (graph.successors current)[search.successors_visited current]!
        let search := { search with
          successors_visited := Function.update search.successors_visited current
            (search.successors_visited current + 1) }
        if search.visiting successor then
          { search with
            back_edges := Function.update search.back_edges successor
              (search.back_edges successor ++ [current]) }
        else if !search.visited successor then
          { search with
            visited := Function.update search.visited successor true
            visiting := Function.update search.visiting successor true
            worklist := successor :: search.worklist }
        else search

/-- The loop of `FindBackEdges`, for at most `fuel` iterations. -/
def FindBackEdgesLoop (graph : HGraph) : Nat → BackEdgeSearch → Option BackEdgeSearch
  | 0, search => if search.worklist.isEmpty then some search else none
  | fuel + 1, search =>
      if search.worklist.isEmpty then some search
      else FindBackEdgesLoop graph fuel (graph.FindBackEdgesStep search)

/-- `FindBackEdges(visited)`: a depth-first search from the entry block that
records as a back edge each edge into a block on the search's stack. -/
def FindBackEdges (graph : HGraph) : Option BackEdgeSearch :=
  graph.FindBackEdgesLoop graph.TraversalBound
    { visited := Function.update (fun _ => false) graph.entry_block true
      visiting := Function.update (fun _ => false) graph.entry_block true
      successors_visited := fun _ => 0
      worklist := [graph.entry_block]
      back_edges := fun _ => [] }

end HGraph

namespace CommonDominator

/-- `ChainLength(block)`: the number of blocks from `block` up the
dominators, walking at most `fuel` blocks. -/
def ChainLength (dominator : Nat → Option Nat) : Nat → Option Nat → Option Nat
  | _, none => some 0
  | 0, some _ => none
  | fuel + 1, some block => (ChainLength dominator fuel (dominator block)).map (· + 1)

/-- The loop `for ( ; chain_length > chain_length2; --chain_length)` that
walks `block` up to the depth of the other block. -/
def WalkUpTo (dominator : Nat → Option Nat) : Nat → Nat → Option Nat → Option Nat
  | 0, _, block => block
  | chain_length + 1, chain_length2, block =>
      if chain_length + 1 > chain_length2 then
        WalkUpTo dominator chain_length chain_length2 (block.bind dominator)
      else block

/-- The loop `while (block != block2)` that walks both blocks up together,
for at most `chain_length` steps. -/
def WalkTogether (dominator : Nat → Option Nat) :
    Nat → Option Nat → Option Nat → Option (Option Nat)
  | 0, block, block2 => if block = block2 then some block else none
  | chain_length + 1, block, block2 =>
      if block = block2 then some block
      else WalkTogether dominator chain_length (block.bind dominator) (block2.bind dominator)

/-- `ForPair(block1, block2)`: `CommonDominator finder(block1)`, then
`finder.Update(block2)`, then `finder.Get()`. -/
def ForPair (dominator : Nat → Option Nat) (fuel block1 block2 : Nat) : Option (Option Nat) := do
  let chain_length_ ← ChainLength dominator fuel (some block1)
  if block2 = block1 then pure (some block1)
  else
    let chain_length ← ChainLength dominator fuel (some block2)
    let block := WalkUpTo dominator chain_length chain_length_ (some block2)
    let block2 := WalkUpTo dominator chain_length_ chain_length (some block1)
    WalkTogether dominator (min chain_length chain_length_) block block2

end CommonDominator

namespace HBasicBlock

/-- `block->Dominates(other)`: walk up the dominators from `other`, at most
`fuel` blocks, looking for `block`. -/
def Dominates (dominator : Nat → Option Nat) (block : Nat) : Nat → Option Nat → Option Bool
  | _, none => some false
  | 0, some _ => none
  | fuel + 1, some current =>
      if current = block then some true else Dominates dominator block fuel (dominator current)

end HBasicBlock

/-- `UpdateDominatorOfSuccessor(block, successor)`: whether the dominator of
`successor` changed, and the dominators after the call. -/
def UpdateDominatorOfSuccessor (fuel : Nat) (dominator : Nat → Option Nat) (block successor : Nat) :
    Option (Bool × (Nat → Option Nat)) := do
  let old_dominator := dominator successor
  let new_dominator ←
    match old_dominator with
    | none => pure (some block)
    | some old_dominator => CommonDominator.ForPair dominator fuel old_dominator block
  if old_dominator = new_dominator then pure (false, dominator)
  else pure (true, Function.update dominator successor new_dominator)

/-- The state of the first loop of `ComputeDominanceInformation`. -/
structure DominanceState where
  dominator : Nat → Option Nat
  reverse_post_order : List Nat
  visits : Nat → Nat
  successors_visited : Nat → Nat
  worklist : List Nat

namespace HGraph

/-- One iteration of the first loop of `ComputeDominanceInformation`: a
block is pushed once all its forward edges, those that are not back edges,
have been visited. -/
def DominanceStep (graph : HGraph) (back_edges : Nat → List Nat) (state : DominanceState) :
    Option DominanceState :=
  match state.worklist with
  | [] => some state
  | current :: rest =>
      if state.successors_visited current = (graph.successors current).length then
        some { state with worklist := rest }
      else do
        let successor := (graph.successors current)[state.successors_visited current]!
        let (_, dominator) ←
          UpdateDominatorOfSuccessor graph.num_blocks state.dominator current successor
        let visits := state.visits successor + 1
        let state := { state with
          dominator
          visits := Function.update state.visits successor visits
          successors_visited := Function.update state.successors_visited current
            (state.successors_visited current + 1) }
        -- `NumberOfBackEdges()` is the number of back edges of a loop header, and 0 otherwise
        if visits = graph.NumberOfPredecessors successor - (back_edges successor).length then
          pure { state with
            reverse_post_order := state.reverse_post_order ++ [successor]
            worklist := successor :: state.worklist }
        else pure state

/-- The first loop of `ComputeDominanceInformation`, for at most `fuel`
iterations. -/
def DominanceLoop (graph : HGraph) (back_edges : Nat → List Nat) :
    Nat → DominanceState → Option DominanceState
  | 0, state => if state.worklist.isEmpty then some state else none
  | fuel + 1, state =>
      if state.worklist.isEmpty then some state
      else (graph.DominanceStep back_edges state).bind (graph.DominanceLoop back_edges fuel)

/-- `header->GetLoopInformation()->HasBackEdgeNotDominatedByHeader()`. -/
def HasBackEdgeNotDominatedByHeader (graph : HGraph) (dominator : Nat → Option Nat)
    (header : Nat) (back_edges : List Nat) : Option Bool :=
  back_edges.anyM fun back_edge =>
    (HBasicBlock.Dominates dominator header graph.num_blocks (some back_edge)).map (!·)

/-- The loop that decides `must_run_fix_point`: some loop header has a back
edge that it does not dominate. -/
def MustRunFixPoint (graph : HGraph) (back_edges : Nat → List Nat)
    (dominator : Nat → Option Nat) : Option Bool :=
  (List.range graph.num_blocks).anyM fun block =>
    -- `block->IsLoopHeader()`: the block has a back edge
    if (back_edges block).isEmpty then pure false
    else graph.HasBackEdgeNotDominatedByHeader dominator block (back_edges block)

/-- One pass of the fix-point iteration: `UpdateDominatorOfSuccessor` on
every edge, by blocks in reverse post order, and whether an update
occurred. -/
def FixPointPass (graph : HGraph) (reverse_post_order : List Nat)
    (dominator : Nat → Option Nat) : Option (Bool × (Nat → Option Nat)) :=
  reverse_post_order.foldlM
    (fun (update_occurred, dominator) block =>
      (graph.successors block).foldlM
        (fun (update_occurred, dominator) successor => do
          let (updated, dominator) ←
            UpdateDominatorOfSuccessor graph.num_blocks dominator block successor
          pure (update_occurred || updated, dominator))
        (update_occurred, dominator))
    (false, dominator)

/-- The fix-point iteration, for at most `fuel` passes. -/
def FixPoint (graph : HGraph) (reverse_post_order : List Nat) :
    Nat → (Nat → Option Nat) → Option (Nat → Option Nat)
  | 0, _ => none
  | fuel + 1, dominator => do
      let (update_occurred, dominator) ← graph.FixPointPass reverse_post_order dominator
      if update_occurred then graph.FixPoint reverse_post_order fuel dominator
      else pure dominator

/-- `ComputeDominanceInformation()` with the back edges that `FindBackEdges`
recorded: the dominator of each block and the reverse post order. -/
def ComputeDominanceInformation (graph : HGraph) (back_edges : Nat → List Nat) :
    Option ((Nat → Option Nat) × List Nat) := do
  let state ← graph.DominanceLoop back_edges graph.TraversalBound
    { dominator := fun _ => none
      reverse_post_order := [graph.entry_block]
      visits := fun _ => 0
      successors_visited := fun _ => 0
      worklist := [graph.entry_block] }
  let must_run_fix_point ← graph.MustRunFixPoint back_edges state.dominator
  let dominator ←
    if must_run_fix_point then
      graph.FixPoint state.reverse_post_order (graph.num_blocks * graph.num_blocks + 1)
        state.dominator
    else pure state.dominator
  pure (dominator, state.reverse_post_order)

end HGraph

end ArtRuntime.Optimizing
