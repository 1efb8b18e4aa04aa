import ArtRuntime.Dominators
import ArtRuntime.Graph.Linearization

namespace ArtRuntime.Optimizing

/-!
# The linear order of an `HGraph`

`LinearizeGraphInternal` and its helpers from `linear_order.cc`.  A loop is
named by its header: `loop_information block` is the header of the innermost
loop of `block` (`GetLoopInformation()`, null for none), and
`blocks header block` is bit `block` of that loop's `blocks_`.  The back edges
of a loop are those that `FindBackEdges` recorded on its header.  As in
`ComputeDominanceInformation`, the back of the `worklist` vector is the head
of its list, and the `linear_order` array is the list of the blocks written
so far.  `forward_predecessors` holds `uint32_t` counts: the `size_t`
subtractions stored into it are `UInt32` subtractions.
-/

/-- The loop information that the linear order reads. -/
structure LoopInformation where
  loop_information : Nat → Option Nat
  blocks : Nat → Nat → Bool

namespace LoopInformation

variable (loops : LoopInformation)

/-- `block->IsLoopHeader()`: the block is the header of its own loop. -/
def IsLoopHeader (block : Nat) : Bool :=
  loops.loop_information block == some block

end LoopInformation

/-- `InSameLoop(first_loop, second_loop)`. -/
def InSameLoop (first_loop second_loop : Option Nat) : Bool :=
  first_loop == second_loop

/-- `IsLoop(info)`. -/
def IsLoop (info : Option Nat) : Bool :=
  info.isSome

/-- `IsInnerLoop(outer, inner)`: distinct loops, the header of `inner` among
the blocks of `outer` (`inner->IsIn(*outer)`). -/
def IsInnerLoop (loops : LoopInformation) (outer inner : Option Nat) : Bool :=
  match outer, inner with
  | some outer, some inner => inner != outer && loops.blocks outer inner
  | _, _ => false

/-- `AddToListForLinearization(worklist, block)`: from the back of the
worklist, pass the blocks that must be processed before `block`, and insert
`block` above the first that need not. -/
def AddToListForLinearization (loops : LoopInformation) (worklist : List Nat) (block : Nat) :
    List Nat :=
  let block_loop := loops.loop_information block
  Graph.insertBefore
    (fun current =>
      let current_loop := loops.loop_information current
      InSameLoop block_loop current_loop || !IsLoop current_loop ||
        IsInnerLoop loops current_loop block_loop)
    block worklist

/-- The scan of `IsLinearOrderWellFormed` for the loop of `header`, with
`num_blocks` blocks, over the rest of the linear order, `found_blocks` of
them found so far. -/
def CheckLoopOrder (loops : LoopInformation) (back_edges : Nat → List Nat) (header num_blocks : Nat) :
    Nat → List Nat → Bool
  | _, [] => true
  | found_blocks, block :: rest =>
      if loops.blocks header block then
        let found_blocks := found_blocks + 1
        -- the first block is not the header
        if found_blocks = 1 ∧ block ≠ header then false
        -- the last block is not a back edge
        else if found_blocks = num_blocks ∧ block ∉ back_edges header then false
        else CheckLoopOrder loops back_edges header num_blocks found_blocks rest
      -- blocks are not adjacent
      else if found_blocks ≠ 0 ∧ found_blocks ≠ num_blocks then false
      else CheckLoopOrder loops back_edges header num_blocks found_blocks rest

/-- `IsLinearOrderWellFormed(graph, linear_order)`: the blocks of every loop
are consecutive, starting with its header and ending with a back edge. -/
def IsLinearOrderWellFormed (graph : HGraph) (loops : LoopInformation)
    (back_edges : Nat → List Nat) (linear_order : List Nat) : Bool :=
  (List.range graph.num_blocks).all fun header =>
    -- `loop->GetBlocks().NumSetBits()`
    let num_blocks := ((List.range graph.num_blocks).filter (loops.blocks header)).length
    !loops.IsLoopHeader header ||
      CheckLoopOrder loops back_edges header num_blocks 0 linear_order

/-- The state of the worklist loop of `LinearizeGraphInternal`. -/
structure LinearizeState where
  forward_predecessors : Nat → UInt32
  worklist : List Nat
  linear_order : List Nat

namespace HGraph

variable (graph : HGraph) (loops : LoopInformation) (back_edges : Nat → List Nat)

/-- Step (1) of `LinearizeGraphInternal`: the number of forward predecessors
of each block of the reverse post order; other entries stay 0. -/
def ForwardPredecessorCounts (reverse_post_order : List Nat) : Nat → UInt32 :=
  reverse_post_order.foldl
    (fun forward_predecessors block =>
      let number_of_forward_predecessors :=
        UInt32.ofNat (graph.NumberOfPredecessors block) -
          if loops.IsLoopHeader block then UInt32.ofNat (back_edges block).length else 0
      Function.update forward_predecessors block number_of_forward_predecessors)
    fun _ => 0

/-- The body of the loop over the successors of the current block: the last
forward predecessor of a successor releases it into the worklist. -/
def VisitSuccessor (state : LinearizeState) (successor : Nat) : LinearizeState :=
  let number_of_remaining_predecessors := state.forward_predecessors successor
  { state with
    worklist :=
      if number_of_remaining_predecessors = 1 then
        AddToListForLinearization loops state.worklist successor
      else state.worklist
    forward_predecessors := Function.update state.forward_predecessors successor
      (number_of_remaining_predecessors - 1) }

/-- One iteration of the `do`/`while` loop of step (2): pop the back of the
worklist, append it to the linear order, and visit its successors. -/
def LinearizeStep (state : LinearizeState) : LinearizeState :=
  match state.worklist with
  | [] => state
  | current :: rest =>
      (graph.successors current).foldl (VisitSuccessor loops)
        { state with worklist := rest, linear_order := state.linear_order ++ [current] }

/-- The `do`/`while` loop of step (2), for at most `fuel` iterations: `none`
when the worklist is still not empty then. -/
def LinearizeLoop : Nat → LinearizeState → Option LinearizeState
  | 0, _ => none
  | fuel + 1, state =>
      let state := graph.LinearizeStep loops state
      if state.worklist.isEmpty then some state else LinearizeLoop fuel state

/-- `LinearizeGraphInternal(graph, linear_order)`: the linear order, which
has a slot for each block of the reverse post order, or `none` when the
blocks to place outnumber the slots. -/
def LinearizeGraphInternal (reverse_post_order : List Nat) : Option (List Nat) :=
  (graph.LinearizeLoop loops reverse_post_order.length
      { forward_predecessors :=
          graph.ForwardPredecessorCounts loops back_edges reverse_post_order
        worklist := [graph.entry_block]
        linear_order := [] }).map
    LinearizeState.linear_order

end HGraph

end ArtRuntime.Optimizing
