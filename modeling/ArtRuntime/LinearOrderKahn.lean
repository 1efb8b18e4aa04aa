import ArtRuntime.LinearOrder
import ArtRuntime.DominatorsOrder
import Mathlib.Tactic.IntervalCases

namespace ArtRuntime.Optimizing

open ArtRuntime.Graph

/-!
# The linear order is a topological order of the forward edges

`LinearizeGraphInternal` is Kahn's algorithm on the forward edges, those
that are not back edges: `forward_predecessors` counts down, for each block,
the forward edges not yet visited, and the last one releases the block into
the worklist.  `KahnInvariant` says what holds between any two visits, the
successors of each block visited so far being given by `examined`: each count
is the number of forward edges less the number of edges visited, as a
`uint32_t`; a block has been released exactly when all its forward edges have
been visited; and every placed block comes after the sources of its forward
edges.  A back edge leaves a block that its header reaches along forward
edges, so it is visited only once its header is placed, when the count of the
header has reached 0: the count wraps and does not reach 1 again.

Where `AddToListForLinearization` puts a released block does not matter
here: the invariant holds for any insertion that adds the block once.  With
every block of the graph in the reverse post order, the loop places every
block once, each after the sources of its forward edges.
-/

namespace HGraph

variable {graph : HGraph} {loops : LoopInformation} {back_edges : Nat → List Nat}

section Counts

/-- Writing a value that depends only on the block, for each block of a
list, leaves the value at the blocks written and the initial one
elsewhere. -/
theorem foldl_update_apply (value : Nat → UInt32) :
    ∀ (blocks : List Nat) (initial : Nat → UInt32) (block : Nat),
      blocks.foldl (fun counts block => Function.update counts block (value block)) initial block =
        if block ∈ blocks then value block else initial block
  | [], _, _ => by simp
  | first :: rest, initial, block => by
      rw [List.foldl_cons, foldl_update_apply value rest]
      by_cases later : block ∈ rest
      · simp [later]
      · by_cases isFirst : block = first
        · subst isFirst
          simp [later]
        · simp [later, isFirst]

theorem ForwardPredecessorCounts_apply (reverse_post_order : List Nat) (block : Nat) :
    graph.ForwardPredecessorCounts loops back_edges reverse_post_order block =
      if block ∈ reverse_post_order then
        UInt32.ofNat (graph.NumberOfPredecessors block) -
          if loops.IsLoopHeader block then UInt32.ofNat (back_edges block).length else 0
      else 0 :=
  foldl_update_apply _ reverse_post_order _ block

variable (wellFormed : graph.WellFormed) (backEdges : graph.BackEdges back_edges)
include wellFormed backEdges

omit wellFormed in
/-- A block that is the source of a forward edge into `block`, when `block`
is not the entry block. -/
theorem exists_forward_source {block : Nat} (blockLt : block < graph.num_blocks)
    (notEntry : block ≠ graph.entry_block) : ∃ source, graph.ForwardEdge back_edges source block := by
  obtain ⟨source, -, forward⟩ :=
    (Relation.ReflTransGen.cases_tail (backEdges.entry_reaches block blockLt)).resolve_left
      notEntry
  exact ⟨source, forward⟩

/-- No back edge enters the entry block. -/
theorem back_edges_entry : back_edges graph.entry_block = [] :=
  List.eq_nil_iff_forall_not_mem.mpr fun source back => by
    have counted := backEdges.count source graph.entry_block back
    have member : graph.entry_block ∈ graph.successors source :=
      List.count_pos_iff.mp (counted ▸ List.count_pos_iff.mpr back)
    exact wellFormed.entry_no_predecessor source (backEdges.source_lt source _ back) member

/-- The back edges into a block are among its predecessors. -/
theorem back_edges_length_le {block : Nat} (blockLt : block < graph.num_blocks) :
    (back_edges block).length ≤ graph.NumberOfPredecessors block := by
  by_cases isEntry : block = graph.entry_block
  · rw [isEntry, back_edges_entry wellFormed backEdges]
    exact Nat.zero_le _
  · have pos := ForwardPredecessors_pos backEdges blockLt isEntry
    rw [← NumberOfPredecessors_sub backEdges] at pos
    omega

/-- Step (1) gives each block the number of its forward edges, when the
reverse post order holds every block and the headers of the back edges are
loop headers. -/
theorem ForwardPredecessorCounts_eq {reverse_post_order : List Nat}
    (headers : ∀ block, back_edges block ≠ [] → loops.IsLoopHeader block = true)
    (everyBlock : ∀ block < graph.num_blocks, block ∈ reverse_post_order)
    {block : Nat} (blockLt : block < graph.num_blocks) :
    graph.ForwardPredecessorCounts loops back_edges reverse_post_order block =
      UInt32.ofNat (graph.ForwardPredecessors back_edges block) := by
  rw [ForwardPredecessorCounts_apply, if_pos (everyBlock block blockLt),
    ← NumberOfPredecessors_sub backEdges]
  by_cases header : loops.IsLoopHeader block = true
  · rw [if_pos header, ofNat_sub_ofNat_of_le (back_edges_length_le wellFormed backEdges blockLt)]
  · -- a block that is no loop header has no back edge into it
    have noBack : back_edges block = [] := by
      by_contra nonempty
      exact header (headers block nonempty)
    rw [if_neg header, noBack]
    simp

end Counts

/-- The edges into `block` are its predecessors. -/
theorem NumberOfPredecessors_eq_sum (block : Nat) :
    graph.NumberOfPredecessors block =
      ∑ source ∈ Finset.range graph.num_blocks, (graph.successors source).count block := by
  rw [NumberOfPredecessors, Finset.sum_eq_multiset_sum, Finset.range_val, Multiset.range,
    Multiset.map_coe, Multiset.sum_coe]

theorem ExaminedInto_le_NumberOfPredecessors (examined : Nat → Nat) (block : Nat) :
    graph.ExaminedInto examined block ≤ graph.NumberOfPredecessors block := by
  rw [NumberOfPredecessors_eq_sum]
  exact Finset.sum_le_sum fun source _ => (List.take_sublist _ _).count_le block

@[simp] theorem VisitSuccessor_linear_order (state : LinearizeState) (successor : Nat) :
    (VisitSuccessor loops state successor).linear_order = state.linear_order := rfl

@[simp] theorem VisitSuccessor_forward_predecessors (state : LinearizeState) (successor : Nat) :
    (VisitSuccessor loops state successor).forward_predecessors =
      Function.update state.forward_predecessors successor
        (state.forward_predecessors successor - 1) := rfl

theorem foldl_VisitSuccessor_linear_order (successors : List Nat) (state : LinearizeState) :
    (successors.foldl (VisitSuccessor loops) state).linear_order = state.linear_order := by
  induction successors generalizing state with
  | nil => rfl
  | cons successor rest inductionHypothesis => exact inductionHypothesis _

/-- An iteration on a nonempty worklist. -/
theorem LinearizeLoop_succ (fuel : Nat) (state : LinearizeState) :
    graph.LinearizeLoop loops (fuel + 1) state =
      if (graph.LinearizeStep loops state).worklist.isEmpty then some (graph.LinearizeStep loops state)
      else graph.LinearizeLoop loops fuel (graph.LinearizeStep loops state) := rfl

theorem LinearizeStep_of_top {state : LinearizeState} {current : Nat} {rest : List Nat}
    (top : state.worklist = current :: rest) :
    graph.LinearizeStep loops state =
      (graph.successors current).foldl (VisitSuccessor loops)
        { state with worklist := rest, linear_order := state.linear_order ++ [current] } := by
  unfold LinearizeStep
  rw [top]

@[simp] theorem VisitSuccessor_worklist (state : LinearizeState) (successor : Nat) :
    (VisitSuccessor loops state successor).worklist =
      if state.forward_predecessors successor = 1 then
        AddToListForLinearization loops state.worklist successor
      else state.worklist := rfl

theorem mem_AddToListForLinearization {worklist : List Nat} {block other : Nat} :
    other ∈ AddToListForLinearization loops worklist block ↔ other = block ∨ other ∈ worklist :=
  mem_insertBefore

theorem AddToListForLinearization_perm (worklist : List Nat) (block : Nat) :
    (AddToListForLinearization loops worklist block).Perm (block :: worklist) :=
  insertBefore_perm worklist

/-- What holds between two visits of the worklist loop, the successors of
each block visited so far being given by `examined`. -/
structure KahnInvariant (graph : HGraph) (back_edges : Nat → List Nat) (state : LinearizeState)
    (examined : Nat → Nat) : Prop where
  order_nodup : state.linear_order.Nodup
  order_lt : ∀ block ∈ state.linear_order, block < graph.num_blocks
  worklist_nodup : state.worklist.Nodup
  worklist_lt : ∀ block ∈ state.worklist, block < graph.num_blocks
  worklist_fresh : ∀ block ∈ state.worklist, block ∉ state.linear_order
  examined_le : ∀ block, examined block ≤ (graph.successors block).length
  unplaced : ∀ block, block ∉ state.linear_order → examined block = 0
  counts : ∀ block < graph.num_blocks,
    state.forward_predecessors block =
      UInt32.ofNat (graph.ForwardPredecessors back_edges block) -
        UInt32.ofNat (graph.ExaminedInto examined block)
  released : ∀ block < graph.num_blocks,
    (block ∈ state.linear_order ∨ block ∈ state.worklist) ↔
      graph.ExaminedForwardInto back_edges examined block =
        graph.ForwardPredecessors back_edges block
  before : ∀ block ∈ state.linear_order, ∀ source, graph.ForwardEdge back_edges source block →
    source ∈ state.linear_order ∧
      state.linear_order.idxOf source < state.linear_order.idxOf block

/-- Between two iterations of the loop: every placed block has had all its
successors visited. -/
def Settled (graph : HGraph) (back_edges : Nat → List Nat) (state : LinearizeState) : Prop :=
  ∃ examined, KahnInvariant graph back_edges state examined ∧
    ∀ block ∈ state.linear_order, examined block = (graph.successors block).length

namespace KahnInvariant

variable {state : LinearizeState} {examined : Nat → Nat}
  (invariant : KahnInvariant graph back_edges state examined)
include invariant

/-- A block from which a placed block is reached along forward edges is
placed. -/
theorem placed_of_reaches {a b : Nat}
    (reaches : Relation.ReflTransGen (graph.ForwardEdge back_edges) a b)
    (placed : b ∈ state.linear_order) : a ∈ state.linear_order := by
  induction reaches with
  | refl => exact placed
  | tail _ forward inductionHypothesis =>
      exact inductionHypothesis (invariant.before _ placed _ forward).1

/-- A block with a successor visited is placed. -/
theorem placed_of_examined {source : Nat} (visited : 0 < examined source) :
    source ∈ state.linear_order := by
  by_contra absent
  rw [invariant.unplaced source absent] at visited
  exact Nat.lt_irrefl 0 visited

/-- No back edge into a block that is not placed has been visited. -/
theorem ExaminedInto_eq_forward_of_absent (backEdges : graph.BackEdges back_edges) {block : Nat}
    (absent : block ∉ state.linear_order) :
    graph.ExaminedInto examined block = graph.ExaminedForwardInto back_edges examined block := by
  refine ExaminedInto_eq_forward fun source back => ?_
  by_contra counted
  -- the back edge was visited, so its source, and then its header, are placed
  have visited : 0 < examined source := by
    by_contra zero
    rw [Nat.eq_zero_of_not_pos zero, List.take_zero, List.count_nil] at counted
    exact counted rfl
  exact absent (invariant.placed_of_reaches (backEdges.header_reaches source block back)
    (invariant.placed_of_examined visited))

/-- The sources of the forward edges into a released block are placed. -/
theorem source_placed {block source : Nat}
    (full : graph.ExaminedForwardInto back_edges examined block =
      graph.ForwardPredecessors back_edges block)
    (forward : graph.ForwardEdge back_edges source block) : source ∈ state.linear_order := by
  obtain ⟨sourceLt, isEdge, notBack⟩ := forward
  have termwise := (Finset.sum_eq_sum_iff_of_le fun source _ => by
      split_ifs
      · exact le_refl 0
      · exact (List.take_sublist _ _).count_le block).mp full source
    (Finset.mem_range.mpr sourceLt)
  rw [if_neg notBack, if_neg notBack] at termwise
  refine invariant.placed_of_examined (Nat.pos_of_ne_zero fun zero => ?_)
  rw [zero, List.take_zero, List.count_nil] at termwise
  exact absurd (List.count_pos_iff.mpr isEdge) (by omega)

/-- The placed and waiting blocks are distinct blocks of the graph. -/
theorem length_le : state.linear_order.length + state.worklist.length ≤ graph.num_blocks := by
  have nodup : (state.linear_order ++ state.worklist).Nodup :=
    invariant.order_nodup.append invariant.worklist_nodup
      fun block placed waiting => invariant.worklist_fresh block waiting placed
  have inRange : state.linear_order ++ state.worklist ⊆ List.range graph.num_blocks :=
    fun block member => List.mem_range.mpr (by
      rcases List.mem_append.mp member with placed | waiting
      · exact invariant.order_lt block placed
      · exact invariant.worklist_lt block waiting)
  simpa using (nodup.subperm inRange).length_le

/-- With every successor of the placed blocks visited, a block whose forward
edges all leave placed blocks has been released. -/
theorem released_of_sources
    (settled : ∀ block ∈ state.linear_order, examined block = (graph.successors block).length)
    {block : Nat} (blockLt : block < graph.num_blocks)
    (sources : ∀ source, graph.ForwardEdge back_edges source block → source ∈ state.linear_order) :
    block ∈ state.linear_order ∨ block ∈ state.worklist := by
  refine (invariant.released block blockLt).mpr (Finset.sum_congr rfl fun source sourceRange => ?_)
  split_ifs with back
  · rfl
  by_cases isEdge : block ∈ graph.successors source
  · rw [settled source (sources source ⟨Finset.mem_range.mp sourceRange, isEdge, back⟩),
      List.take_length]
  · rw [List.count_eq_zero.mpr isEdge,
      List.count_eq_zero.mpr fun member => isEdge (List.mem_of_mem_take member)]

section Visit

variable (wellFormed : graph.WellFormed) (backEdges : graph.BackEdges back_edges)
  (fits : ∀ block < graph.num_blocks, graph.NumberOfPredecessors block < 2 ^ 32)
  {current : Nat} (placed : current ∈ state.linear_order)
  (remaining : examined current < (graph.successors current).length)
include wellFormed backEdges fits placed remaining

/-- The count of the successor being visited is 1 exactly when this edge is
the last forward edge into a block not yet released. -/
theorem hit_iff :
    state.forward_predecessors (graph.successors current)[examined current]! = 1 ↔
      (graph.successors current)[examined current]! ∉ state.linear_order ∧
        (graph.successors current)[examined current]! ∉ state.worklist ∧
        graph.ExaminedForwardInto back_edges examined (graph.successors current)[examined current]! + 1 =
          graph.ForwardPredecessors back_edges (graph.successors current)[examined current]! := by
  generalize next : (graph.successors current)[examined current]! = successor
  have isEdge := OrderInvariant.next_mem remaining next
  have currentLt := invariant.order_lt current placed
  have successorLt := wellFormed.successors_lt current currentLt successor isEdge
  have notEntry : successor ≠ graph.entry_block := fun same =>
    wellFormed.entry_no_predecessor current currentLt (same ▸ isEdge)
  -- the edge being visited is among the predecessors not yet counted
  have room : graph.ExaminedInto examined successor + 1 ≤ graph.NumberOfPredecessors successor := by
    have advanced : graph.ExaminedInto (Function.update examined current (examined current + 1))
        successor ≤ graph.NumberOfPredecessors successor :=
      ExaminedInto_le_NumberOfPredecessors _ _
    rw [ExaminedInto_advance currentLt remaining, ← next, if_pos rfl] at advanced
    rw [next] at advanced
    exact advanced
  have fit := fits successor successorLt
  have forwardLe : graph.ExaminedForwardInto back_edges examined successor ≤
      graph.ForwardPredecessors back_edges successor :=
    ExaminedForwardInto_le _ _ _
  have forwardBelow : graph.ForwardPredecessors back_edges successor ≤
      graph.NumberOfPredecessors successor := by
    rw [← NumberOfPredecessors_sub backEdges]
    exact Nat.sub_le _ _
  rw [invariant.counts successor successorLt]
  by_cases released : successor ∈ state.linear_order ∨ successor ∈ state.worklist
  · -- a released block has had all its forward edges counted: its count is past 0
    have full := (invariant.released successor successorLt).mp released
    have pos := ForwardPredecessors_pos backEdges successorLt notEntry
    have counted : graph.ExaminedForwardInto back_edges examined successor ≤
        graph.ExaminedInto examined successor :=
      ExaminedForwardInto_le_ExaminedInto _ _
    refine ⟨fun hit => absurd hit (ofNat_sub_ofNat_ne_one (by omega) pos (by omega)), ?_⟩
    rintro ⟨absent, waiting, _⟩
    exact absurd released (not_or.mpr ⟨absent, waiting⟩)
  · obtain ⟨absent, waiting⟩ := not_or.mp released
    have short := fun full => released ((invariant.released successor successorLt).mpr full)
    rw [invariant.ExaminedInto_eq_forward_of_absent backEdges absent,
      ofNat_sub_ofNat_eq_one_iff forwardLe (by omega)]
    simp only [absent, waiting, not_false_eq_true, true_and]
    omega

/-- The edge visited into a block that it releases is a forward edge. -/
theorem forward_of_hit
    (hit : state.forward_predecessors (graph.successors current)[examined current]! = 1) :
    graph.ForwardEdge back_edges current (graph.successors current)[examined current]! := by
  obtain ⟨absent, -, -⟩ := (invariant.hit_iff wellFormed backEdges fits placed remaining).mp hit
  refine ⟨invariant.order_lt current placed, OrderInvariant.next_mem remaining rfl, fun back => ?_⟩
  exact absent (invariant.placed_of_reaches (backEdges.header_reaches _ _ back) placed)

/-- Visiting the next successor of a placed block keeps the invariant. -/
theorem visit :
    KahnInvariant graph back_edges
      (VisitSuccessor loops state (graph.successors current)[examined current]!)
      (Function.update examined current (examined current + 1)) := by
  have hit_iff := invariant.hit_iff wellFormed backEdges fits placed remaining
  have forward_of_hit := invariant.forward_of_hit wellFormed backEdges fits placed remaining
  generalize next : (graph.successors current)[examined current]! = successor at hit_iff forward_of_hit
  have isEdge := OrderInvariant.next_mem remaining next
  have currentLt := invariant.order_lt current placed
  have successorLt := wellFormed.successors_lt current currentLt successor isEdge
  -- the new worklist: the old one, with `successor` when it is released now
  have worklist : ∀ block, block ∈ (VisitSuccessor loops state successor).worklist ↔
      block ∈ state.worklist ∨
        block = successor ∧ state.forward_predecessors successor = 1 := by
    intro block
    rw [VisitSuccessor_worklist]
    split_ifs with hit
    · rw [mem_AddToListForLinearization]
      tauto
    · simp [hit]
  constructor
  case order_nodup => exact invariant.order_nodup
  case order_lt => exact invariant.order_lt
  case worklist_nodup =>
    rw [VisitSuccessor_worklist]
    split_ifs with hit
    · exact (AddToListForLinearization_perm _ _).nodup_iff.mpr
        (List.nodup_cons.mpr ⟨(hit_iff.mp hit).2.1, invariant.worklist_nodup⟩)
    · exact invariant.worklist_nodup
  case worklist_lt =>
    intro block member
    rcases (worklist block).mp member with old | ⟨rfl, -⟩
    · exact invariant.worklist_lt block old
    · exact successorLt
  case worklist_fresh =>
    intro block member
    rcases (worklist block).mp member with old | ⟨rfl, hit⟩
    · exact invariant.worklist_fresh block old
    · exact (hit_iff.mp hit).1
  case examined_le =>
    intro block
    by_cases isCurrent : block = current
    · subst isCurrent
      rw [Function.update_self]
      exact remaining
    · rw [Function.update_of_ne isCurrent]
      exact invariant.examined_le block
  case unplaced =>
    intro block absent
    have isCurrent : block ≠ current := fun same => absent (same ▸ placed)
    rw [Function.update_of_ne isCurrent]
    exact invariant.unplaced block absent
  case counts =>
    intro block blockLt
    rw [VisitSuccessor_forward_predecessors, ExaminedInto_advance currentLt remaining, next]
    by_cases isSuccessor : block = successor
    · subst isSuccessor
      rw [Function.update_self, if_pos rfl, invariant.counts block blockLt, sub_ofNat_sub_one]
    · rw [Function.update_of_ne isSuccessor, if_neg isSuccessor, Nat.add_zero]
      exact invariant.counts block blockLt
  case released =>
    intro block blockLt
    have before := invariant.released block blockLt
    have forwardLe : graph.ExaminedForwardInto back_edges
        (Function.update examined current (examined current + 1)) block ≤
        graph.ForwardPredecessors back_edges block :=
      ExaminedForwardInto_le _ _ _
    rw [ExaminedForwardInto_advance currentLt remaining, next] at forwardLe ⊢
    rw [VisitSuccessor_linear_order, worklist]
    by_cases counted : block = successor ∧ current ∉ back_edges block
    · -- a forward edge into `block`, which cannot have been released before it
      rw [if_pos counted] at forwardLe ⊢
      obtain ⟨rfl, -⟩ := counted
      have waiting : ¬ (block ∈ state.linear_order ∨ block ∈ state.worklist) := fun released => by
        rw [before.mp released] at forwardLe
        exact Nat.not_succ_le_self _ forwardLe
      obtain ⟨absent, notQueued⟩ := not_or.mp waiting
      constructor
      · rintro (placed | queued | ⟨-, hit⟩)
        · exact absurd placed absent
        · exact absurd queued notQueued
        · exact (hit_iff.mp hit).2.2
      · exact fun last => .inr (.inr ⟨rfl, hit_iff.mpr ⟨absent, notQueued, last⟩⟩)
    · -- a back edge or an edge into another block: nothing is released
      rw [if_neg counted, Nat.add_zero]
      have notReleased : ¬ (block = successor ∧ state.forward_predecessors successor = 1) :=
        fun ⟨same, hit⟩ => counted ⟨same, same ▸ (forward_of_hit hit).2.2⟩
      exact ⟨fun member => before.mp (member.imp_right fun queued => queued.resolve_right notReleased),
        fun full => (before.mpr full).imp_right Or.inl⟩
  case before => exact invariant.before

end Visit

/-- Popping the back of the worklist when every placed block has had all its
successors visited: the block is placed after the sources of its forward
edges. -/
theorem pop {current : Nat} {rest : List Nat} (top : state.worklist = current :: rest) :
    KahnInvariant graph back_edges
      { state with worklist := rest, linear_order := state.linear_order ++ [current] }
      examined := by
  have onTop : current ∈ state.worklist := top ▸ List.mem_cons_self
  have fresh := invariant.worklist_fresh current onTop
  have nodup := invariant.worklist_nodup
  rw [top, List.nodup_cons] at nodup
  have currentLt := invariant.worklist_lt current onTop
  have full := (invariant.released current currentLt).mp (.inr onTop)
  constructor
  case order_nodup =>
    exact invariant.order_nodup.append (List.nodup_singleton current)
      (List.disjoint_singleton.mpr fresh)
  case order_lt =>
    intro block member
    rcases List.mem_append.mp member with old | new
    · exact invariant.order_lt block old
    · exact (List.mem_singleton.mp new) ▸ currentLt
  case worklist_nodup => exact nodup.2
  case worklist_lt =>
    exact fun block member => invariant.worklist_lt block (top ▸ List.mem_cons_of_mem _ member)
  case worklist_fresh =>
    intro block member placed
    rcases List.mem_append.mp placed with old | new
    · exact invariant.worklist_fresh block (top ▸ List.mem_cons_of_mem _ member) old
    · exact nodup.1 ((List.mem_singleton.mp new) ▸ member)
  case examined_le => exact invariant.examined_le
  case unplaced =>
    exact fun block absent => invariant.unplaced block fun old => absent (List.mem_append_left _ old)
  case counts => exact invariant.counts
  case released =>
    intro block blockLt
    rw [← invariant.released block blockLt, top]
    simp only [List.mem_append, List.mem_cons]
    tauto
  case before =>
    intro block member source forward
    have sourcePlaced : ∀ {block}, block ∈ state.linear_order →
        (state.linear_order ++ [current]).idxOf block = state.linear_order.idxOf block :=
      fun placed => List.idxOf_append_of_mem placed
    rcases List.mem_append.mp member with old | new
    · obtain ⟨placed, earlier⟩ := invariant.before block old source forward
      exact ⟨List.mem_append_left _ placed, by rw [sourcePlaced placed, sourcePlaced old]; exact earlier⟩
    · rw [List.mem_singleton.mp new] at forward ⊢
      have placed := invariant.source_placed full forward
      refine ⟨List.mem_append_left _ placed, ?_⟩
      rw [sourcePlaced placed, List.idxOf_append_of_notMem fresh, List.idxOf_cons_self]
      exact List.idxOf_lt_length_of_mem placed

end KahnInvariant

section Loop

variable (wellFormed : graph.WellFormed) (backEdges : graph.BackEdges back_edges)
  (fits : ∀ block < graph.num_blocks, graph.NumberOfPredecessors block < 2 ^ 32)
include wellFormed backEdges fits

/-- Visiting the successors of a placed block from `examined current` on
keeps the invariant, and any property that each visit keeps. -/
theorem KahnInvariant.visit_all {current : Nat} (keeps : LinearizeState → Prop)
    (preserve : ∀ state examined, KahnInvariant graph back_edges state examined →
      current ∈ state.linear_order → examined current < (graph.successors current).length →
      keeps state →
      keeps (VisitSuccessor loops state (graph.successors current)[examined current]!)) :
    ∀ steps state examined, examined current + steps = (graph.successors current).length →
      KahnInvariant graph back_edges state examined → current ∈ state.linear_order →
      keeps state →
      ∃ examined', KahnInvariant graph back_edges
          (((graph.successors current).drop (examined current)).foldl (VisitSuccessor loops) state)
          examined' ∧
        keeps (((graph.successors current).drop (examined current)).foldl (VisitSuccessor loops) state) ∧
        examined' current = (graph.successors current).length ∧
        ∀ block ≠ current, examined' block = examined block
  | 0, state, examined, done, invariant, _, kept => by
      rw [Nat.add_zero] at done
      rw [done, List.drop_length, List.foldl_nil]
      exact ⟨examined, invariant, kept, done, fun _ _ => rfl⟩
  | steps + 1, state, examined, done, invariant, placed, kept => by
      have remaining : examined current < (graph.successors current).length := by omega
      rw [List.drop_eq_getElem_cons remaining, List.foldl_cons,
        ← getElem!_pos (graph.successors current) _ remaining]
      have next : KahnInvariant graph back_edges
          (VisitSuccessor loops state (graph.successors current)[examined current]!)
          (Function.update examined current (examined current + 1)) :=
        invariant.visit wellFormed backEdges fits placed remaining
      obtain ⟨examined', invariant', kept', last, others⟩ :=
        KahnInvariant.visit_all keeps preserve steps _ _
          (by rw [Function.update_self]; omega) next placed
          (preserve state examined invariant placed remaining kept)
      rw [Function.update_self] at invariant' kept'
      refine ⟨examined', invariant', kept', last, fun block isOther => ?_⟩
      rw [others block isOther, Function.update_of_ne isOther]

/-- One iteration of the loop places the back of the worklist and keeps the
loop's invariant, and any property that each visit of its successors keeps. -/
theorem Settled.step {state : LinearizeState} (settled : Settled graph back_edges state)
    {current : Nat} {rest : List Nat} (top : state.worklist = current :: rest)
    (keeps : LinearizeState → Prop)
    (preserve : ∀ state examined, KahnInvariant graph back_edges state examined →
      current ∈ state.linear_order → examined current < (graph.successors current).length →
      keeps state →
      keeps (VisitSuccessor loops state (graph.successors current)[examined current]!))
    (kept : keeps { state with worklist := rest, linear_order := state.linear_order ++ [current] }) :
    Settled graph back_edges (graph.LinearizeStep loops state) ∧
      keeps (graph.LinearizeStep loops state) ∧
      (graph.LinearizeStep loops state).linear_order = state.linear_order ++ [current] := by
  obtain ⟨examined, invariant, done⟩ := settled
  have popped := invariant.pop top
  have unvisited : examined current = 0 :=
    invariant.unplaced current (invariant.worklist_fresh current (top ▸ List.mem_cons_self))
  obtain ⟨examined', invariant', kept', last, others⟩ :=
    KahnInvariant.visit_all wellFormed backEdges fits keeps preserve
      (graph.successors current).length _ examined (by omega) popped
      (List.mem_append_right _ (List.mem_singleton_self current)) kept
  rw [unvisited, List.drop_zero] at invariant' kept'
  rw [LinearizeStep_of_top top]
  refine ⟨⟨examined', invariant', fun block member => ?_⟩, kept', foldl_VisitSuccessor_linear_order _ _⟩
  rw [foldl_VisitSuccessor_linear_order] at member
  rcases List.mem_append.mp member with old | new
  · have isOther : block ≠ current := fun same =>
      invariant.worklist_fresh current (top ▸ List.mem_cons_self) (same ▸ old)
    rw [others block isOther]
    exact done block old
  · rw [List.mem_singleton.mp new]
    exact last

omit fits in
/-- The loop starts with the entry block in the worklist and the counts of
step (1). -/
theorem Settled.initial {reverse_post_order : List Nat}
    (headers : ∀ block, back_edges block ≠ [] → loops.IsLoopHeader block = true)
    (everyBlock : ∀ block < graph.num_blocks, block ∈ reverse_post_order) :
    Settled graph back_edges
      { forward_predecessors := graph.ForwardPredecessorCounts loops back_edges reverse_post_order
        worklist := [graph.entry_block]
        linear_order := [] } := by
  refine ⟨fun _ => 0, ?_, fun _ absurd => by simp at absurd⟩
  have unvisited : ∀ block, graph.ExaminedForwardInto back_edges (fun _ => 0) block = 0 := by
    simp [ExaminedForwardInto]
  constructor
  case order_nodup => exact List.nodup_nil
  case order_lt => exact fun _ absurd => by simp at absurd
  case worklist_nodup => exact List.nodup_singleton _
  case worklist_lt => exact fun _ member => (List.mem_singleton.mp member) ▸ wellFormed.entry_lt
  case worklist_fresh => exact fun _ _ absurd => by simp at absurd
  case examined_le => exact fun _ => Nat.zero_le _
  case unplaced => exact fun _ _ => rfl
  case counts =>
    intro block blockLt
    dsimp only
    rw [ForwardPredecessorCounts_eq wellFormed backEdges headers everyBlock blockLt]
    simp [ExaminedInto]
  case released =>
    intro block blockLt
    rw [unvisited]
    simp only [List.not_mem_nil, List.mem_singleton, false_or]
    constructor
    · rintro rfl
      exact (ForwardPredecessors_entry wellFormed).symm
    · intro none
      by_contra notEntry
      exact absurd (ForwardPredecessors_pos backEdges blockLt notEntry) (by omega)
  case before => exact fun _ absurd => by simp at absurd

/-- With fuel for the blocks not yet placed, the loop runs until the worklist
is empty, keeping the invariant and any property that its iterations keep. -/
theorem LinearizeLoop_spec (keeps : LinearizeState → Prop)
    (preserve : ∀ state current rest, Settled graph back_edges state →
      state.worklist = current :: rest → keeps state → keeps (graph.LinearizeStep loops state)) :
    ∀ fuel state, Settled graph back_edges state → keeps state → state.worklist ≠ [] →
      graph.num_blocks ≤ state.linear_order.length + fuel →
      ∃ result, graph.LinearizeLoop loops fuel state = some result ∧
        Settled graph back_edges result ∧ keeps result ∧ result.worklist = []
  | 0, state, ⟨_, invariant, _⟩, _, nonempty, enough => by
      -- a waiting block would be one block too many
      have bound := invariant.length_le
      have waiting := List.length_pos_of_ne_nil nonempty
      omega
  | fuel + 1, state, settled, kept, nonempty, enough => by
      obtain ⟨current, rest, top⟩ := List.exists_cons_of_ne_nil nonempty
      have stepped : Settled graph back_edges (graph.LinearizeStep loops state) ∧ True ∧
          (graph.LinearizeStep loops state).linear_order = state.linear_order ++ [current] :=
        settled.step wellFormed backEdges fits top (fun _ => True) (fun _ _ _ _ _ _ => trivial) trivial
      obtain ⟨settled', -, placed⟩ := stepped
      have kept' := preserve state current rest settled top kept
      rw [LinearizeLoop_succ]
      split
      case isTrue empty => exact ⟨_, rfl, settled', kept', List.isEmpty_iff.mp empty⟩
      case isFalse notEmpty =>
        refine LinearizeLoop_spec keeps preserve fuel _ settled' kept'
          (fun nil => notEmpty (List.isEmpty_iff.mpr nil)) ?_
        rw [placed, List.length_append, List.length_singleton]
        omega

/-- `LinearizeGraphInternal` runs its loop until the worklist is empty, with
a reverse post order that holds every block once, and its result keeps any
property that the iterations keep. -/
theorem LinearizeGraphInternal_spec
    (headers : ∀ block, back_edges block ≠ [] → loops.IsLoopHeader block = true)
    {reverse_post_order : List Nat} (order_nodup : reverse_post_order.Nodup)
    (mem_order : ∀ block, block ∈ reverse_post_order ↔ block < graph.num_blocks)
    (keeps : LinearizeState → Prop)
    (preserve : ∀ state current rest, Settled graph back_edges state →
      state.worklist = current :: rest → keeps state → keeps (graph.LinearizeStep loops state))
    (initial : keeps
      { forward_predecessors := graph.ForwardPredecessorCounts loops back_edges reverse_post_order
        worklist := [graph.entry_block]
        linear_order := [] }) :
    ∃ result, graph.LinearizeGraphInternal loops back_edges reverse_post_order =
        some result.linear_order ∧
      Settled graph back_edges result ∧ keeps result ∧ result.worklist = [] := by
  have length : reverse_post_order.length = graph.num_blocks := by
    rw [← List.toFinset_card_of_nodup order_nodup,
      show reverse_post_order.toFinset = Finset.range graph.num_blocks from
        Finset.ext fun block => by simp [mem_order], Finset.card_range]
  obtain ⟨result, loop, settled, kept, empty⟩ :=
    LinearizeLoop_spec wellFormed backEdges fits keeps preserve reverse_post_order.length _
      (Settled.initial wellFormed backEdges headers fun block blockLt => (mem_order block).mpr blockLt)
      initial (List.cons_ne_nil _ _) (by rw [length]; exact Nat.le_add_left _ _)
  exact ⟨result, by rw [LinearizeGraphInternal, loop]; rfl, settled, kept, empty⟩

omit wellFormed fits in
/-- A block of a set that is not placed leaves one waiting in the worklist,
when the set holds the sources of forward edges into its blocks that are not
placed: the one of largest rank has all its forward sources placed. -/
theorem Settled.exists_waiting {state : LinearizeState} (settled : Settled graph back_edges state)
    (inSet : Nat → Prop) [DecidablePred inSet] {block : Nat} (blockLt : block < graph.num_blocks)
    (absent : block ∉ state.linear_order) (member : inSet block)
    (closed : ∀ block source, inSet block → block ∉ state.linear_order →
      graph.ForwardEdge back_edges source block → source ∉ state.linear_order → inSet source) :
    ∃ waiting ∈ state.worklist, inSet waiting := by
  obtain ⟨examined, invariant, done⟩ := settled
  obtain ⟨rank, ranked⟩ := backEdges.ranked
  obtain ⟨last, lastLeft, largest⟩ :=
    ((Finset.range graph.num_blocks).filter
        fun block => block ∉ state.linear_order ∧ inSet block).exists_max_image rank
      ⟨block, Finset.mem_filter.mpr ⟨Finset.mem_range.mpr blockLt, absent, member⟩⟩
  obtain ⟨lastRange, lastAbsent, lastIn⟩ := Finset.mem_filter.mp lastLeft
  -- every block with a forward edge into `last` has a larger rank, so it is placed
  have released := invariant.released_of_sources done (Finset.mem_range.mp lastRange)
    fun source forward => by
      by_contra sourceAbsent
      have := largest source (Finset.mem_filter.mpr ⟨Finset.mem_range.mpr forward.1, sourceAbsent,
        closed last source lastIn lastAbsent forward sourceAbsent⟩)
      have := ranked source last forward
      omega
  exact ⟨last, released.resolve_left lastAbsent, lastIn⟩

omit wellFormed fits in
/-- Once the worklist is empty, every block is placed. -/
theorem Settled.all_placed {state : LinearizeState} (settled : Settled graph back_edges state)
    (empty : state.worklist = []) {block : Nat} (blockLt : block < graph.num_blocks) :
    block ∈ state.linear_order := by
  by_contra absent
  obtain ⟨waiting, member, -⟩ :=
    settled.exists_waiting backEdges (fun _ => True) blockLt absent trivial fun _ _ _ _ _ _ => trivial
  rw [empty] at member
  exact List.not_mem_nil member

end Loop

/-- A linear order of the blocks: each block once, after the sources of its
forward edges. -/
structure TopologicalOrder (graph : HGraph) (back_edges : Nat → List Nat) (order : List Nat) :
    Prop where
  nodup : order.Nodup
  mem : ∀ block, block ∈ order ↔ block < graph.num_blocks
  before : ∀ source block, graph.ForwardEdge back_edges source block →
    order.idxOf source < order.idxOf block

/-- The loop's result, once its worklist is empty, is a topological order. -/
theorem Settled.topologicalOrder (wellFormed : graph.WellFormed)
    (backEdges : graph.BackEdges back_edges) {state : LinearizeState}
    (settled : Settled graph back_edges state) (empty : state.worklist = []) :
    TopologicalOrder graph back_edges state.linear_order := by
  have placed : ∀ block < graph.num_blocks, block ∈ state.linear_order :=
    fun _ blockLt => settled.all_placed backEdges empty blockLt
  obtain ⟨examined, invariant, -⟩ := settled
  refine ⟨invariant.order_nodup, fun block => ⟨invariant.order_lt block, placed block⟩,
    fun source block forward => ?_⟩
  have blockLt := wellFormed.successors_lt source forward.1 block forward.2.1
  exact (invariant.before block (placed block blockLt) source forward).2

section SimpleLoop

/-! A loop of two blocks, 1 and 2, entered from the entry block 0 and left
for block 3. -/

def simpleLoop : HGraph where
  num_blocks := 4
  entry_block := 0
  successors
    | 0 => [1]
    | 1 => [2, 3]
    | 2 => [1]
    | _ => []

def simpleLoopBackEdges : Nat → List Nat
  | 1 => [2]
  | _ => []

def simpleLoopInformation : LoopInformation where
  loop_information
    | 1 => some 1
    | 2 => some 1
    | _ => none
  blocks header block := header == 1 && (block == 1 || block == 2)

theorem simpleLoop_wellFormed : simpleLoop.WellFormed where
  entry_lt := by decide
  successors_lt := by decide
  entry_no_predecessor := by decide
  reachable block blockLt := by
    have toOne : Graph.Edge simpleLoop.successors 0 1 := by simp [Graph.Edge, simpleLoop]
    have toTwo : Graph.Edge simpleLoop.successors 1 2 := by simp [Graph.Edge, simpleLoop]
    have toThree : Graph.Edge simpleLoop.successors 1 3 := by simp [Graph.Edge, simpleLoop]
    change block < 4 at blockLt
    interval_cases block
    · exact .refl
    · exact .single toOne
    · exact .tail (.single toOne) toTwo
    · exact .tail (.single toOne) toThree

theorem mem_simpleLoopBackEdges {source header : Nat} :
    source ∈ simpleLoopBackEdges header ↔ source = 2 ∧ header = 1 := by
  unfold simpleLoopBackEdges
  split <;> simp_all

theorem simpleLoop_backEdges : simpleLoop.BackEdges simpleLoopBackEdges where
  source_lt source header back := by
    rw [(mem_simpleLoopBackEdges.mp back).1]
    decide
  count source header back := by
    obtain ⟨rfl, rfl⟩ := mem_simpleLoopBackEdges.mp back
    decide
  header_reaches source header back := by
    obtain ⟨rfl, rfl⟩ := mem_simpleLoopBackEdges.mp back
    exact .single (by unfold ForwardEdge; decide)
  ranked := ⟨fun block => 4 - block, fun block successor ⟨blockLt, isEdge, notBack⟩ => by
    show 4 - successor < 4 - block
    change block < 4 at blockLt
    interval_cases block <;> simp [simpleLoop, mem_simpleLoopBackEdges] at isEdge notBack <;> omega⟩
  entry_reaches block blockLt := by
    have toOne : simpleLoop.ForwardEdge simpleLoopBackEdges 0 1 := by unfold ForwardEdge; decide
    have toTwo : simpleLoop.ForwardEdge simpleLoopBackEdges 1 2 := by unfold ForwardEdge; decide
    have toThree : simpleLoop.ForwardEdge simpleLoopBackEdges 1 3 := by unfold ForwardEdge; decide
    change block < 4 at blockLt
    interval_cases block
    · exact .refl
    · exact .single toOne
    · exact .tail (.single toOne) toTwo
    · exact .tail (.single toOne) toThree

end SimpleLoop

/-- `LinearizeGraphInternal` places every block of the graph once, each
after the sources of its forward edges, when the reverse post order holds
every block once, the headers of the back edges are loop headers, and the
numbers of predecessors fit the `uint32_t` counts. -/
theorem LinearizeGraphInternal_topological (wellFormed : graph.WellFormed)
    (backEdges : graph.BackEdges back_edges)
    (headers : ∀ block, back_edges block ≠ [] → loops.IsLoopHeader block = true)
    {reverse_post_order : List Nat} (order_nodup : reverse_post_order.Nodup)
    (mem_order : ∀ block, block ∈ reverse_post_order ↔ block < graph.num_blocks)
    (fits : ∀ block < graph.num_blocks, graph.NumberOfPredecessors block < 2 ^ 32) :
    ∃ linear_order,
      graph.LinearizeGraphInternal loops back_edges reverse_post_order = some linear_order ∧
        TopologicalOrder graph back_edges linear_order := by
  obtain ⟨result, internal, settled, -, empty⟩ :=
    LinearizeGraphInternal_spec wellFormed backEdges fits headers order_nodup mem_order
      (fun _ => True) (fun _ _ _ _ _ _ => trivial) trivial
  exact ⟨result.linear_order, internal, settled.topologicalOrder wellFormed backEdges empty⟩

/-- A loop of two blocks entered from the entry block: the linear order is
the numbering of the blocks. -/
theorem simpleLoop_topological : simpleLoop.WellFormed ∧
    ∃ linear_order,
      simpleLoop.LinearizeGraphInternal simpleLoopInformation simpleLoopBackEdges [0, 1, 2, 3] =
        some linear_order ∧ TopologicalOrder simpleLoop simpleLoopBackEdges linear_order :=
  ⟨simpleLoop_wellFormed,
    LinearizeGraphInternal_topological simpleLoop_wellFormed simpleLoop_backEdges
      (fun block nonempty => by
        unfold simpleLoopBackEdges at nonempty
        split at nonempty
        · decide
        · exact absurd rfl nonempty)
      (by decide) (fun block => by simp [simpleLoop]; omega) (by decide)⟩

example :
    simpleLoop.LinearizeGraphInternal simpleLoopInformation simpleLoopBackEdges [0, 1, 2, 3] =
      some [0, 1, 2, 3] := by
  decide

end HGraph

end ArtRuntime.Optimizing
