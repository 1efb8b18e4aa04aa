import ArtRuntime.DominatorsBackEdges
import Mathlib.Algebra.Order.BigOperators.Group.Finset
import Mathlib.Algebra.BigOperators.Group.Finset.Piecewise
import Mathlib.Data.Finset.Max

namespace ArtRuntime.Optimizing

open ArtRuntime.Graph

/-!
# The first loop of `ComputeDominanceInformation`

The first loop is a depth-first traversal that counts, in `visits`, the
edges examined into each block, and pushes a block once that count reaches
the number of its forward edges, those that are not back edges.  A back edge
leaves a block that its header reaches along forward edges, so no back edge
into a block is examined before the block is pushed: the count reaches the
number of forward edges exactly when all of them have been examined.  The
loop is therefore a topological sort of the forward edges, and it releases
every block.

Along the way `UpdateDominatorOfSuccessor` keeps `DominatorTree`, and the
dominators of the blocks pushed so far, with their ancestors, never change
again unless a back edge leaves a block that its header is not above.  At
the end, either every edge has the dominator of its target above its source,
or some back edge is not dominated by its header: this is what
`MustRunFixPoint` tells apart.
-/

namespace HGraph

variable (graph : HGraph) (back_edges : Nat → List Nat)

/-- The number of forward edges into `block`. -/
def ForwardPredecessors (block : Nat) : Nat :=
  ∑ source ∈ Finset.range graph.num_blocks,
    if source ∈ back_edges block then 0 else (graph.successors source).count block

/-- The number of edges into `block` examined, the successors of each block
examined so far being given by `examined`. -/
def ExaminedInto (examined : Nat → Nat) (block : Nat) : Nat :=
  ∑ source ∈ Finset.range graph.num_blocks,
    ((graph.successors source).take (examined source)).count block

/-- The number of forward edges into `block` examined. -/
def ExaminedForwardInto (examined : Nat → Nat) (block : Nat) : Nat :=
  ∑ source ∈ Finset.range graph.num_blocks,
    if source ∈ back_edges block then 0
    else ((graph.successors source).take (examined source)).count block

/-- The invariant of the first loop of `ComputeDominanceInformation`, over
the blocks pushed so far: those in `reverse_post_order`. -/
structure OrderInvariant (state : DominanceState) : Prop where
  tree : DominatorTree graph state.dominator
  in_tree : ∀ block ∈ state.reverse_post_order, InTree graph state.dominator block
  closed : ∀ block ∈ state.reverse_post_order, ∀ a, Above state.dominator a block →
    a ∈ state.reverse_post_order
  order_nodup : state.reverse_post_order.Nodup
  order_lt : ∀ block ∈ state.reverse_post_order, block < graph.num_blocks
  entry_mem : graph.entry_block ∈ state.reverse_post_order
  worklist_nodup : state.worklist.Nodup
  worklist_pushed : ∀ block ∈ state.worklist, block ∈ state.reverse_post_order
  successors_visited_le : ∀ block,
    state.successors_visited block ≤ (graph.successors block).length
  unpushed : ∀ block, block ∉ state.reverse_post_order → state.successors_visited block = 0
  popped : ∀ block ∈ state.reverse_post_order, block ∉ state.worklist →
    state.successors_visited block = (graph.successors block).length
  visits : ∀ block, state.visits block = graph.ExaminedInto state.successors_visited block
  back_examined : ∀ header, header ∉ state.reverse_post_order → ∀ source ∈ back_edges header,
    ((graph.successors source).take (state.successors_visited source)).count header = 0
  waiting : ∀ block < graph.num_blocks, block ∉ state.reverse_post_order →
    state.visits block < graph.ForwardPredecessors back_edges block
  released : ∀ block ∈ state.reverse_post_order,
    graph.ExaminedForwardInto back_edges state.successors_visited block =
      graph.ForwardPredecessors back_edges block
  before : ∀ block ∈ state.reverse_post_order, ∀ source,
    graph.ForwardEdge back_edges source block →
      source ∈ state.reverse_post_order ∧
        state.reverse_post_order.idxOf source < state.reverse_post_order.idxOf block
  -- either every examined edge has the dominator of its target above its
  -- source, or a back edge leaves a pushed block that its header is not above
  stable_or_broken :
    (∀ source successor,
      successor ∈ (graph.successors source).take (state.successors_visited source) →
        ∃ p, state.dominator successor = some p ∧ Above state.dominator p source) ∨
    (∃ source header, source ∈ back_edges header ∧ source ∈ state.reverse_post_order ∧
      ¬ Above state.dominator header source)

variable {graph} {back_edges}

theorem sum_count_range {list : List Nat} {bound : Nat} (bounded : ∀ x ∈ list, x < bound) :
    ∑ x ∈ Finset.range bound, list.count x = list.length := by
  have subset : list.toFinset ⊆ Finset.range bound := fun x member =>
    Finset.mem_range.mpr (bounded x (List.mem_toFinset.mp member))
  rw [← Finset.sum_subset subset fun x _ absent =>
    List.count_eq_zero.mpr fun member => absent (List.mem_toFinset.mpr member)]
  exact List.sum_toFinset_count_eq_length list

/-- The threshold of the first loop is the number of forward edges. -/
theorem NumberOfPredecessors_sub (backEdges : graph.BackEdges back_edges) (block : Nat) :
    graph.NumberOfPredecessors block - (back_edges block).length =
      graph.ForwardPredecessors back_edges block := by
  -- each edge into `block` is a back edge or a forward edge
  have split : graph.NumberOfPredecessors block =
      (∑ source ∈ Finset.range graph.num_blocks,
        if source ∈ back_edges block then (graph.successors source).count block else 0) +
      graph.ForwardPredecessors back_edges block := by
    rw [NumberOfPredecessors, ForwardPredecessors, ← Finset.sum_add_distrib, Finset.sum_eq_multiset_sum,
      Finset.range_val, Multiset.range, Multiset.map_coe, Multiset.sum_coe]
    congr 1
    refine List.map_congr_left fun source _ => ?_
    split_ifs <;> simp
  have back : (back_edges block).length =
      ∑ source ∈ Finset.range graph.num_blocks,
        if source ∈ back_edges block then (graph.successors source).count block else 0 := by
    rw [← sum_count_range (backEdges.source_lt · block)]
    refine Finset.sum_congr rfl fun source _ => ?_
    split_ifs with member
    · exact backEdges.count source block member
    · exact List.count_eq_zero.mpr member
  omega

theorem ExaminedForwardInto_le (back_edges : Nat → List Nat) (examined : Nat → Nat) (block : Nat) :
    graph.ExaminedForwardInto back_edges examined block ≤ graph.ForwardPredecessors back_edges block :=
  Finset.sum_le_sum fun source _ => by
    split_ifs
    · exact le_refl 0
    · exact (List.take_sublist _ _).count_le block

theorem ExaminedForwardInto_le_ExaminedInto (examined : Nat → Nat) (block : Nat) :
    graph.ExaminedForwardInto back_edges examined block ≤ graph.ExaminedInto examined block :=
  Finset.sum_le_sum fun source _ => by
    split_ifs
    · exact Nat.zero_le _
    · exact le_refl _

/-- With no back edge into `block` examined, every edge examined into it is
a forward edge. -/
theorem ExaminedInto_eq_forward {examined : Nat → Nat} {block : Nat}
    (noBack : ∀ source ∈ back_edges block,
      ((graph.successors source).take (examined source)).count block = 0) :
    graph.ExaminedInto examined block = graph.ExaminedForwardInto back_edges examined block :=
  Finset.sum_congr rfl fun source _ => by
    split_ifs with member
    · exact noBack source member
    · rfl

section Advance

variable {examined : Nat → Nat} {current : Nat} (currentLt : current < graph.num_blocks)
  (remaining : examined current < (graph.successors current).length)
include currentLt remaining

/-- Examining one more successor of `current` counts one more edge into it. -/
theorem ExaminedInto_advance (block : Nat) :
    graph.ExaminedInto
        (Function.update examined current (examined current + 1)) block =
      graph.ExaminedInto examined block +
        if block = (graph.successors current)[examined current]! then 1 else 0 := by
  unfold ExaminedInto
  simp only [count_advance remaining, Finset.sum_add_distrib, ite_and]
  rw [Finset.sum_ite_eq', if_pos (Finset.mem_range.mpr currentLt)]

theorem ExaminedForwardInto_advance (back_edges : Nat → List Nat) (block : Nat) :
    graph.ExaminedForwardInto back_edges
        (Function.update examined current (examined current + 1)) block =
      graph.ExaminedForwardInto back_edges examined block +
        if block = (graph.successors current)[examined current]! ∧ current ∉ back_edges block
        then 1 else 0 := by
  unfold ExaminedForwardInto
  have split : ∀ source, (if source ∈ back_edges block then 0 else
      ((graph.successors source).take
        (Function.update examined current (examined current + 1) source)).count block) =
      (if source ∈ back_edges block then 0 else
        ((graph.successors source).take (examined source)).count block) +
      if source = current then
        (if block = (graph.successors current)[examined current]! ∧ current ∉ back_edges block
          then 1 else 0)
      else 0 := by
    intro source
    rw [count_advance remaining]
    generalize (graph.successors current)[examined current]! = next
    by_cases isCurrent : source = current
    · subst source
      by_cases isNext : block = next
      · subst isNext
        by_cases back : current ∈ back_edges block <;> simp [back]
      · simp [isNext]
    · simp [isCurrent]
  simp only [split, Finset.sum_add_distrib]
  rw [Finset.sum_ite_eq', if_pos (Finset.mem_range.mpr currentLt)]

end Advance

/-- Every block other than the entry block has a forward edge into it. -/
theorem ForwardPredecessors_pos (backEdges : graph.BackEdges back_edges) {block : Nat}
    (blockLt : block < graph.num_blocks) (notEntry : block ≠ graph.entry_block) :
    0 < graph.ForwardPredecessors back_edges block := by
  obtain ⟨source, -, sourceLt, isEdge, notBack⟩ :=
    (Relation.ReflTransGen.cases_tail (backEdges.entry_reaches block blockLt)).resolve_left
      notEntry
  calc 0 < (graph.successors source).count block := List.count_pos_iff.mpr isEdge
    _ = if source ∈ back_edges block then 0 else (graph.successors source).count block := by
        rw [if_neg notBack]
    _ ≤ graph.ForwardPredecessors back_edges block :=
        Finset.single_le_sum (f := fun source => if source ∈ back_edges block then 0
          else (graph.successors source).count block)
          (fun _ _ => Nat.zero_le _) (Finset.mem_range.mpr sourceLt)

/-- No edge enters the entry block. -/
theorem ForwardPredecessors_entry (wellFormed : graph.WellFormed) :
    graph.ForwardPredecessors back_edges graph.entry_block = 0 :=
  Finset.sum_eq_zero fun source member => by
    rw [List.count_eq_zero.mpr (wellFormed.entry_no_predecessor source (Finset.mem_range.mp member))]
    split_ifs <;> rfl

namespace OrderInvariant

/-- The first loop starts with the entry block pushed and no dominators. -/
theorem initial (wellFormed : graph.WellFormed) (backEdges : graph.BackEdges back_edges) :
    OrderInvariant graph back_edges
      { dominator := fun _ => none
        reverse_post_order := [graph.entry_block]
        visits := fun _ => 0
        successors_visited := fun _ => 0
        worklist := [graph.entry_block] } where
  tree := DominatorTree.initial
  in_tree _ member := .inl (List.mem_singleton.mp member)
  closed block member a above := by
    rw [above.eq_of_root rfl]
    exact member
  order_nodup := List.nodup_singleton _
  order_lt _ member := List.mem_singleton.mp member ▸ wellFormed.entry_lt
  entry_mem := List.mem_singleton_self _
  worklist_nodup := List.nodup_singleton _
  worklist_pushed _ member := member
  successors_visited_le _ := Nat.zero_le _
  unpushed _ _ := rfl
  popped _ member absent := absurd member absent
  visits block := by simp [ExaminedInto]
  back_examined _ _ _ _ := by simp
  waiting block blockLt absent := by
    have notEntry : block ≠ graph.entry_block := fun same =>
      absent (same ▸ List.mem_singleton_self _)
    exact ForwardPredecessors_pos backEdges blockLt notEntry
  released block member := by
    rw [List.mem_singleton.mp member, ForwardPredecessors_entry wellFormed]
    simp [ExaminedForwardInto]
  before block member source forward := by
    rw [List.mem_singleton.mp member] at forward
    exact absurd forward.2.1 (wellFormed.entry_no_predecessor source forward.1)
  stable_or_broken := .inl fun _ _ examined => by simp at examined

variable {state : DominanceState} (invariant : OrderInvariant graph back_edges state)
include invariant

/-- Popping a block whose successors have all been examined. -/
theorem pop {current : Nat} {rest : List Nat} (top : state.worklist = current :: rest)
    (done : state.successors_visited current = (graph.successors current).length) :
    OrderInvariant graph back_edges { state with worklist := rest } := by
  have nodup := invariant.worklist_nodup
  rw [top, List.nodup_cons] at nodup
  refine { invariant with
    worklist_nodup := nodup.2
    worklist_pushed := fun block member =>
      invariant.worklist_pushed block (top ▸ List.mem_cons_of_mem _ member)
    popped := fun block member absent => ?_ }
  by_cases isCurrent : block = current
  · exact isCurrent ▸ done
  · refine invariant.popped block member fun onStack => absent ?_
    rw [top] at onStack
    exact (List.mem_cons.mp onStack).resolve_left isCurrent

/-- A block from which a pushed block is reached along forward edges is
pushed. -/
theorem pushed_of_reaches {a b : Nat}
    (reaches : Relation.ReflTransGen (graph.ForwardEdge back_edges) a b)
    (pushed : b ∈ state.reverse_post_order) : a ∈ state.reverse_post_order := by
  induction reaches with
  | refl => exact pushed
  | tail _ forward inductionHypothesis =>
      exact inductionHypothesis (invariant.before _ pushed _ forward).1

/-- A block examined from has been pushed. -/
theorem pushed_of_examined {source successor : Nat}
    (examined : successor ∈ (graph.successors source).take (state.successors_visited source)) :
    source ∈ state.reverse_post_order := by
  by_contra absent
  rw [invariant.unpushed source absent, List.take_zero] at examined
  cases examined

omit invariant in
theorem next_mem {examined current successor : Nat}
    (remaining : examined < (graph.successors current).length)
    (next : (graph.successors current)[examined]! = successor) :
    successor ∈ graph.successors current := by
  rw [← next, getElem!_pos (graph.successors current) _ remaining]
  exact List.getElem_mem remaining

/-- A block whose count is about to reach its number of forward edges has not
been pushed. -/
theorem not_pushed_of_releasing {successor : Nat}
    (releasing : state.visits successor + 1 = graph.ForwardPredecessors back_edges successor) :
    successor ∉ state.reverse_post_order := fun pushed => by
  have reached : graph.ExaminedForwardInto back_edges state.successors_visited successor ≤
      graph.ExaminedInto state.successors_visited successor :=
    ExaminedForwardInto_le_ExaminedInto _ _
  rw [invariant.released successor pushed, ← invariant.visits] at reached
  omega

section Examine

variable (wellFormed : graph.WellFormed) (backEdges : graph.BackEdges back_edges)
  {current : Nat} {rest : List Nat} (top : state.worklist = current :: rest)
  (remaining : state.successors_visited current < (graph.successors current).length)
  {successor : Nat}
  (next : (graph.successors current)[state.successors_visited current]! = successor)

include top

theorem top_pushed : current ∈ state.reverse_post_order :=
  invariant.worklist_pushed current (top ▸ List.mem_cons_self)

theorem top_lt : current < graph.num_blocks :=
  invariant.order_lt current (invariant.top_pushed top)

include wellFormed backEdges remaining next

omit wellFormed in
/-- An edge examined into a pushed block is a back edge, and a back edge
leads to a pushed block. -/
theorem pushed_iff_back : successor ∈ state.reverse_post_order ↔ current ∈ back_edges successor := by
  constructor
  · intro pushed
    by_contra forward
    -- one more forward edge would exceed the number of forward edges
    have more := ExaminedForwardInto_advance (invariant.top_lt top) remaining back_edges successor
    rw [next, if_pos ⟨rfl, forward⟩, invariant.released successor pushed] at more
    have bound : graph.ExaminedForwardInto back_edges
        (Function.update state.successors_visited current (state.successors_visited current + 1))
        successor ≤ graph.ForwardPredecessors back_edges successor :=
      ExaminedForwardInto_le _ _ _
    omega
  · intro back
    exact invariant.pushed_of_reaches (backEdges.header_reaches current successor back)
      (invariant.top_pushed top)

omit backEdges in
theorem successor_ne_entry : successor ≠ graph.entry_block := fun same =>
  wellFormed.entry_no_predecessor current (invariant.top_lt top) (same ▸ next_mem remaining next)

omit wellFormed backEdges top next in
theorem advance_le (block : Nat) :
    Function.update state.successors_visited current (state.successors_visited current + 1) block ≤
      (graph.successors block).length := by
  by_cases isCurrent : block = current
  · subst block
    rw [Function.update_self]
    exact remaining
  · rw [Function.update_of_ne isCurrent]
    exact invariant.successors_visited_le block

omit wellFormed backEdges remaining next in
theorem advance_unpushed {block : Nat} (absent : block ∉ state.reverse_post_order) :
    Function.update state.successors_visited current (state.successors_visited current + 1) block =
      0 := by
  have isCurrent : block ≠ current := fun same => absent (same ▸ invariant.top_pushed top)
  rw [Function.update_of_ne isCurrent]
  exact invariant.unpushed block absent

omit wellFormed backEdges remaining next in
theorem advance_popped {block : Nat} (pushed : block ∈ state.reverse_post_order)
    (offStack : block ∉ state.worklist) :
    Function.update state.successors_visited current (state.successors_visited current + 1) block =
      (graph.successors block).length := by
  have isCurrent : block ≠ current := fun same => offStack (same ▸ top ▸ List.mem_cons_self)
  rw [Function.update_of_ne isCurrent]
  exact invariant.popped block pushed offStack

omit wellFormed backEdges in
/-- `visits` keeps counting the edges examined into each block. -/
theorem advance_visits (block : Nat) :
    Function.update state.visits successor (state.visits successor + 1) block =
      graph.ExaminedInto
        (Function.update state.successors_visited current (state.successors_visited current + 1))
        block := by
  rw [ExaminedInto_advance (invariant.top_lt top) remaining, next, ← invariant.visits block]
  by_cases isSuccessor : block = successor
  · rw [isSuccessor, Function.update_self, if_pos rfl]
  · rw [Function.update_of_ne isSuccessor, if_neg isSuccessor, Nat.add_zero]

omit wellFormed in
theorem advance_back_examined {header : Nat} (absent : header ∉ state.reverse_post_order)
    {source : Nat} (back : source ∈ back_edges header) :
    ((graph.successors source).take
      (Function.update state.successors_visited current
        (state.successors_visited current + 1) source)).count header = 0 := by
  rw [count_advance remaining, next, invariant.back_examined header absent source back]
  -- the edge examined is no back edge into a block not yet pushed
  have notNew : ¬ (source = current ∧ header = successor) := by
    rintro ⟨rfl, rfl⟩
    exact absent ((invariant.pushed_iff_back backEdges top remaining next).mpr back)
  rw [if_neg notNew]

omit wellFormed in
theorem advance_released {block : Nat} (pushed : block ∈ state.reverse_post_order) :
    graph.ExaminedForwardInto back_edges
        (Function.update state.successors_visited current (state.successors_visited current + 1))
        block =
      graph.ForwardPredecessors back_edges block := by
  rw [ExaminedForwardInto_advance (invariant.top_lt top) remaining, next,
    invariant.released block pushed]
  -- an edge examined into a pushed block is a back edge
  have notNew : ¬ (block = successor ∧ current ∉ back_edges block) := by
    rintro ⟨rfl, forward⟩
    exact forward ((invariant.pushed_iff_back backEdges top remaining next).mp pushed)
  rw [if_neg notNew, Nat.add_zero]

variable {newDominator : Nat} (new : NewDominator state.dominator current successor newDominator)
include new

omit backEdges in
theorem above_of_update {a b : Nat} (pushed : b ∈ state.reverse_post_order)
    (above : Above (Function.update state.dominator successor (some newDominator)) a b) :
    Above state.dominator a b :=
  new.above_of_update wellFormed invariant.tree (invariant.top_lt top) (next_mem remaining next)
    (invariant.in_tree b pushed) above

/-- After the update, either every examined edge still has the dominator of
its target above its source, or a back edge leaves a pushed block that its
header is not above. -/
theorem stable_or_broken_advance :
    (∀ source target, target ∈ (graph.successors source).take
        (Function.update state.successors_visited current
          (state.successors_visited current + 1) source) →
      ∃ p, Function.update state.dominator successor (some newDominator) target = some p ∧
        Above (Function.update state.dominator successor (some newDominator)) p source) ∨
    (∃ source header, source ∈ back_edges header ∧ source ∈ state.reverse_post_order ∧
      ¬ Above (Function.update state.dominator successor (some newDominator)) header source) := by
  have examined := examined_advance remaining
  rw [next] at examined
  have currentPushed := invariant.top_pushed top
  rcases invariant.stable_or_broken with stable | ⟨source, header, back, pushed, notAbove⟩
  · by_cases pushedSuccessor : successor ∈ state.reverse_post_order
    · -- the edge is a back edge
      have back := (invariant.pushed_iff_back backEdges top remaining next).mp
        pushedSuccessor
      by_cases below : Above state.dominator successor current
      · -- the header is above the source, so the update changes nothing
        obtain ⟨old, hasOld⟩ := Option.ne_none_iff_exists'.mp
          ((invariant.in_tree successor pushedSuccessor).resolve_left
            (invariant.successor_ne_entry wellFormed top remaining next))
        have unchanged : Function.update state.dominator successor (some newDominator) =
            state.dominator := by
          rw [new.eq_of_below invariant.tree hasOld below, ← hasOld, Function.update_eq_self]
        rw [unchanged]
        refine .inl fun source target member => ?_
        rcases (examined source target).mp member with old | ⟨rfl, rfl⟩
        · exact stable source target old
        · exact ⟨old, hasOld, (Above.of_parent hasOld).trans below⟩
      · exact .inr ⟨current, successor, back, currentPushed, fun above =>
          below (invariant.above_of_update wellFormed top remaining next new currentPushed above)⟩
    · -- the edge is a forward edge into a block on no chain of a pushed block
      have keep : ∀ {a b}, b ∈ state.reverse_post_order → Above state.dominator a b →
          Above (Function.update state.dominator successor (some newDominator)) a b :=
        fun pushed above => (Above.update_iff_of_not_above
          (fun below => pushedSuccessor (invariant.closed _ pushed _ below)) _).mpr above
      refine .inl fun source target member => ?_
      rcases (examined source target).mp member with old | ⟨rfl, rfl⟩
      · have sourcePushed := invariant.pushed_of_examined old
        obtain ⟨p, hasParent, above⟩ := stable source target old
        by_cases isSuccessor : target = successor
        · rw [isSuccessor] at hasParent ⊢
          exact ⟨newDominator, Function.update_self _ _ _,
            keep sourcePushed ((new.of_some p hasParent).above_first.trans above)⟩
        · exact ⟨p, by rw [Function.update_of_ne isSuccessor, hasParent], keep sourcePushed above⟩
      · exact ⟨newDominator, Function.update_self _ _ _, new.above_update⟩
  · exact .inr ⟨source, header, back, pushed, fun above =>
      notAbove (invariant.above_of_update wellFormed top remaining next new pushed above)⟩

/-- An edge examined into a block that still waits for forward edges. -/
theorem wait
    (waiting : state.visits successor + 1 ≠ graph.ForwardPredecessors back_edges successor) :
    OrderInvariant graph back_edges
      { state with
        dominator := Function.update state.dominator successor (some newDominator)
        visits := Function.update state.visits successor (state.visits successor + 1)
        successors_visited :=
          Function.update state.successors_visited current (state.successors_visited current + 1) } where
  tree := DominatorTree.update wellFormed invariant.tree (invariant.top_lt top)
    (invariant.in_tree current (invariant.top_pushed top)) (next_mem remaining next) new
  in_tree block pushed := NewDominator.inTree_update (invariant.in_tree block pushed)
  closed block pushed a above :=
    invariant.closed block pushed a (invariant.above_of_update wellFormed top remaining next new pushed above)
  order_nodup := invariant.order_nodup
  order_lt := invariant.order_lt
  entry_mem := invariant.entry_mem
  worklist_nodup := invariant.worklist_nodup
  worklist_pushed := invariant.worklist_pushed
  successors_visited_le := invariant.advance_le remaining
  unpushed _ absent := invariant.advance_unpushed top absent
  popped _ pushed offStack := invariant.advance_popped top pushed offStack
  visits := invariant.advance_visits top remaining next
  back_examined _ absent _ back := invariant.advance_back_examined backEdges top remaining next absent back
  waiting block blockLt absent := by
    dsimp only
    by_cases isSuccessor : block = successor
    · subst block
      rw [Function.update_self]
      have before := invariant.waiting successor blockLt absent
      omega
    · rw [Function.update_of_ne isSuccessor]
      exact invariant.waiting block blockLt absent
  released _ pushed := invariant.advance_released backEdges top remaining next pushed
  before := invariant.before
  stable_or_broken := invariant.stable_or_broken_advance wellFormed backEdges top remaining next new

/-- An edge examined into a block whose last forward edge it is: the block is
pushed, after all the blocks with forward edges into it. -/
theorem push
    (releasing : state.visits successor + 1 = graph.ForwardPredecessors back_edges successor) :
    OrderInvariant graph back_edges
      { dominator := Function.update state.dominator successor (some newDominator)
        visits := Function.update state.visits successor (state.visits successor + 1)
        successors_visited :=
          Function.update state.successors_visited current (state.successors_visited current + 1)
        reverse_post_order := state.reverse_post_order ++ [successor]
        worklist := successor :: state.worklist } := by
  have currentPushed := invariant.top_pushed top
  have isEdge := next_mem remaining next
  have notPushed := invariant.not_pushed_of_releasing releasing
  have offStack : successor ∉ state.worklist := fun onStack =>
    notPushed (invariant.worklist_pushed successor onStack)
  -- all forward edges into the successor have now been examined
  have examinedAll : graph.ExaminedForwardInto back_edges
      (Function.update state.successors_visited current (state.successors_visited current + 1))
      successor = graph.ForwardPredecessors back_edges successor := by
    rw [← ExaminedInto_eq_forward fun source back =>
        invariant.advance_back_examined backEdges top remaining next notPushed back,
      ← invariant.advance_visits top remaining next successor, Function.update_self]
    exact releasing
  have predecessorPushed : ∀ source, graph.ForwardEdge back_edges source successor →
      source ∈ state.reverse_post_order := by
    rintro source ⟨sourceLt, sourceEdge, notBack⟩
    have termwise := (Finset.sum_eq_sum_iff_of_le fun source _ => by
      split_ifs
      · exact le_refl 0
      · exact (List.take_sublist _ _).count_le successor).mp examinedAll source
        (Finset.mem_range.mpr sourceLt)
    rw [if_neg notBack, if_neg notBack] at termwise
    by_contra absent
    rw [invariant.advance_unpushed top absent, List.take_zero, List.count_nil] at termwise
    exact (List.count_pos_iff.mpr sourceEdge).ne termwise
  have mem_pushed : ∀ {block}, block ∈ state.reverse_post_order ++ [successor] →
      block ∈ state.reverse_post_order ∨ block = successor := fun member => by
    simpa using member
  refine
    { tree := DominatorTree.update wellFormed invariant.tree (invariant.top_lt top)
        (invariant.in_tree current currentPushed) isEdge new
      in_tree := fun block pushed => ?_
      closed := fun block pushed a above => ?_
      order_nodup := ?_
      order_lt := fun block pushed => ?_
      entry_mem := List.mem_append_left _ invariant.entry_mem
      worklist_nodup := List.nodup_cons.mpr ⟨offStack, invariant.worklist_nodup⟩
      worklist_pushed := fun block onStack => ?_
      successors_visited_le := invariant.advance_le remaining
      unpushed := fun block absent =>
        invariant.advance_unpushed top fun pushed => absent (List.mem_append_left _ pushed)
      popped := fun block pushed offStack' => ?_
      visits := invariant.advance_visits top remaining next
      back_examined := fun header absent source back =>
        invariant.advance_back_examined backEdges top remaining next
          (fun pushed => absent (List.mem_append_left _ pushed)) back
      waiting := fun block blockLt absent => ?_
      released := fun block pushed => ?_
      before := fun block pushed source forward => ?_
      stable_or_broken := ?_ }
  · rcases mem_pushed pushed with old | rfl
    · exact NewDominator.inTree_update (invariant.in_tree block old)
    · exact .inr (by simp)
  · dsimp only at above
    rcases mem_pushed pushed with old | rfl
    · exact List.mem_append_left _ (invariant.closed block old a
        (invariant.above_of_update wellFormed top remaining next new old above))
    · -- the ancestors of the new block are its new dominator's, which are pushed
      by_cases same : a = block
      · rw [same]
        exact List.mem_append_right _ (List.mem_singleton_self _)
      obtain ⟨p, hasParent, aboveParent⟩ := above.parent_of_ne same
      rw [Function.update_self, Option.some.injEq] at hasParent
      subst hasParent
      have newPushed := invariant.closed current currentPushed _ new.above
      exact List.mem_append_left _ (invariant.closed _ newPushed a
        (invariant.above_of_update wellFormed top remaining next new newPushed aboveParent))
  · rw [← List.concat_eq_append]
    exact invariant.order_nodup.concat notPushed
  · rcases mem_pushed pushed with old | rfl
    · exact invariant.order_lt block old
    · exact wellFormed.successors_lt current (invariant.top_lt top) block isEdge
  · rcases List.mem_cons.mp onStack with rfl | old
    · exact List.mem_append_right _ (List.mem_singleton_self _)
    · exact List.mem_append_left _ (invariant.worklist_pushed block old)
  · have notSuccessor : block ≠ successor := fun same => offStack' (same ▸ List.mem_cons_self)
    exact invariant.advance_popped top ((mem_pushed pushed).resolve_right notSuccessor)
      fun onStack => offStack' (List.mem_cons_of_mem _ onStack)
  · have notSuccessor : block ≠ successor := fun same =>
      absent (same ▸ List.mem_append_right _ (List.mem_singleton_self _))
    dsimp only
    rw [Function.update_of_ne notSuccessor]
    exact invariant.waiting block blockLt fun old => absent (List.mem_append_left _ old)
  · rcases mem_pushed pushed with old | rfl
    · exact invariant.advance_released backEdges top remaining next old
    · exact examinedAll
  · rcases mem_pushed pushed with old | rfl
    · obtain ⟨sourcePushed, earlier⟩ := invariant.before block old source forward
      refine ⟨List.mem_append_left _ sourcePushed, ?_⟩
      dsimp only
      rw [List.idxOf_append_of_mem sourcePushed, List.idxOf_append_of_mem old]
      exact earlier
    · have sourcePushed := predecessorPushed source forward
      refine ⟨List.mem_append_left _ sourcePushed, ?_⟩
      dsimp only
      rw [List.idxOf_append_of_mem sourcePushed, List.idxOf_append, if_neg notPushed]
      exact Nat.lt_of_lt_of_le (List.idxOf_lt_length_of_mem sourcePushed) (Nat.le_add_left _ _)
  · rcases invariant.stable_or_broken_advance wellFormed backEdges top remaining next new with
      stable | ⟨source, header, back, pushed, notAbove⟩
    · exact .inl stable
    · exact .inr ⟨source, header, back, List.mem_append_left _ pushed, notAbove⟩

end Examine

end OrderInvariant

/-- The iterations the first loop has left for `block`: pushing it and
examining its successors while it is not pushed, examining the rest of its
successors and popping it while it is on the stack. -/
def OrderWork (graph : HGraph) (state : DominanceState) (block : Nat) : Nat :=
  if block ∈ state.reverse_post_order then
    if block ∈ state.worklist then
      (graph.successors block).length - state.successors_visited block + 1
    else 0
  else (graph.successors block).length + 1

/-- The iterations the first loop has left. -/
def OrderMeasure (graph : HGraph) (state : DominanceState) : Nat :=
  ∑ block ∈ Finset.range graph.num_blocks, graph.OrderWork state block

/-- The first loop starts with all of `TraversalBound` left. -/
theorem OrderMeasure_initial :
    graph.OrderMeasure
        { dominator := fun _ => none
          reverse_post_order := [graph.entry_block]
          visits := fun _ => 0
          successors_visited := fun _ => 0
          worklist := [graph.entry_block] } =
      graph.TraversalBound := by
  rw [OrderMeasure, TraversalBound, Finset.sum_eq_multiset_sum, Finset.range_val, Multiset.range,
    Multiset.map_coe, Multiset.sum_coe]
  refine congrArg List.sum (List.map_congr_left fun block _ => ?_)
  by_cases isEntry : block = graph.entry_block <;> simp [OrderWork, isEntry]

theorem OrderMeasure_lt {state state' : DominanceState} {current : Nat}
    (currentLt : current < graph.num_blocks)
    (others : ∀ block, block ≠ current → graph.OrderWork state' block ≤ graph.OrderWork state block)
    (less : graph.OrderWork state' current < graph.OrderWork state current) :
    graph.OrderMeasure state' < graph.OrderMeasure state := by
  refine Finset.sum_lt_sum (fun block _ => ?_) ⟨current, Finset.mem_range.mpr currentLt, less⟩
  by_cases isCurrent : block = current
  · exact isCurrent ▸ less.le
  · exact others block isCurrent

namespace OrderInvariant

variable {state : DominanceState} (invariant : OrderInvariant graph back_edges state)
  {current : Nat} {rest : List Nat} (top : state.worklist = current :: rest)
include invariant top

theorem OrderMeasure_pop :
    graph.OrderMeasure { state with worklist := rest } < graph.OrderMeasure state := by
  have nodup := invariant.worklist_nodup
  rw [top, List.nodup_cons] at nodup
  refine OrderMeasure_lt (invariant.top_lt top) (fun block isCurrent => ?_) ?_
  · simp [OrderWork, top, isCurrent]
  · simp [OrderWork, top, nodup.1, invariant.top_pushed top]

/-- Examining one more successor of the top of the stack does one unit of
its work. -/
theorem OrderWork_advance {state' : DominanceState}
    (remaining : state.successors_visited current < (graph.successors current).length)
    (pushed : current ∈ state'.reverse_post_order) (onStack : current ∈ state'.worklist)
    (advanced : state'.successors_visited current = state.successors_visited current + 1) :
    graph.OrderWork state' current < graph.OrderWork state current := by
  simp only [OrderWork, if_pos (invariant.top_pushed top), if_pos (top ▸ List.mem_cons_self : current ∈ state.worklist),
    if_pos pushed, if_pos onStack, advanced]
  omega

theorem OrderMeasure_wait
    (remaining : state.successors_visited current < (graph.successors current).length)
    (dominator : Nat → Option Nat) (visits : Nat → Nat) :
    graph.OrderMeasure
        { state with
          dominator, visits
          successors_visited :=
            Function.update state.successors_visited current (state.successors_visited current + 1) } <
      graph.OrderMeasure state :=
  OrderMeasure_lt (invariant.top_lt top)
    (fun block isCurrent => by simp [OrderWork, Function.update_of_ne isCurrent])
    (invariant.OrderWork_advance top remaining (invariant.top_pushed top)
      (top ▸ List.mem_cons_self) (Function.update_self _ _ _))

theorem OrderMeasure_push
    (remaining : state.successors_visited current < (graph.successors current).length)
    {successor : Nat} (notPushed : successor ∉ state.reverse_post_order)
    (dominator : Nat → Option Nat) (visits : Nat → Nat) :
    graph.OrderMeasure
        { dominator, visits
          successors_visited :=
            Function.update state.successors_visited current (state.successors_visited current + 1)
          reverse_post_order := state.reverse_post_order ++ [successor]
          worklist := successor :: state.worklist } <
      graph.OrderMeasure state := by
  have currentPushed := invariant.top_pushed top
  refine OrderMeasure_lt (invariant.top_lt top) (fun block isCurrent => ?_)
    (invariant.OrderWork_advance top remaining (List.mem_append_left _ currentPushed)
      (List.mem_cons_of_mem _ (top ▸ List.mem_cons_self)) (Function.update_self _ _ _))
  by_cases isSuccessor : block = successor
  · -- the pushed block trades its work while not pushed for its work on the stack
    subst block
    simp [OrderWork, notPushed, Function.update_of_ne isCurrent,
      invariant.unpushed successor notPushed]
  · simp [OrderWork, isSuccessor, Function.update_of_ne isCurrent]

/-- One iteration of the first loop on a nonempty stack succeeds, keeps the
invariant and does one unit of the remaining work. -/
theorem step (wellFormed : graph.WellFormed) (backEdges : graph.BackEdges back_edges) :
    ∃ state', graph.DominanceStep back_edges state = some state' ∧
      OrderInvariant graph back_edges state' ∧ graph.OrderMeasure state' < graph.OrderMeasure state := by
  have currentPushed := invariant.top_pushed top
  unfold DominanceStep
  rw [top]
  dsimp only
  by_cases done : state.successors_visited current = (graph.successors current).length
  · rw [if_pos done]
    exact ⟨_, rfl, invariant.pop top done, invariant.OrderMeasure_pop top⟩
  rw [if_neg done]
  have remaining : state.successors_visited current < (graph.successors current).length :=
    Nat.lt_of_le_of_ne (invariant.successors_visited_le current) done
  generalize next : (graph.successors current)[state.successors_visited current]! = successor
  obtain ⟨newDominator, new, update⟩ := @UpdateDominatorOfSuccessor_spec _ _ invariant.tree _ successor
    (invariant.top_lt top) (invariant.in_tree current currentPushed)
  rw [update]
  simp only [Option.pure_def, Option.bind_eq_bind, Option.bind_some]
  rw [NumberOfPredecessors_sub backEdges, ← top]
  by_cases releasing : state.visits successor + 1 = graph.ForwardPredecessors back_edges successor
  · rw [if_pos releasing]
    exact ⟨_, rfl, invariant.push wellFormed backEdges top remaining next new releasing,
      invariant.OrderMeasure_push top remaining (invariant.not_pushed_of_releasing releasing) _ _⟩
  · rw [if_neg releasing]
    exact ⟨_, rfl, invariant.wait wellFormed backEdges top remaining next new releasing,
      invariant.OrderMeasure_wait top remaining _ _⟩

end OrderInvariant

/-- With fuel for its remaining work, the first loop runs until the stack is
empty, and keeps the invariant. -/
theorem DominanceLoop_spec (wellFormed : graph.WellFormed) (backEdges : graph.BackEdges back_edges)
    (fuel : Nat) :
    ∀ state : DominanceState, OrderInvariant graph back_edges state →
      graph.OrderMeasure state ≤ fuel →
      ∃ result, graph.DominanceLoop back_edges fuel state = some result ∧ result.worklist = [] ∧
        OrderInvariant graph back_edges result := by
  induction fuel with
  | zero =>
      intro state invariant enough
      cases top : state.worklist with
      | nil => exact ⟨state, by simp [DominanceLoop, top], top, invariant⟩
      | cons current rest =>
          obtain ⟨_, _, _, less⟩ := invariant.step top wellFormed backEdges
          omega
  | succ fuel inductionHypothesis =>
      intro state invariant enough
      cases top : state.worklist with
      | nil => exact ⟨state, by simp [DominanceLoop, top], top, invariant⟩
      | cons current rest =>
          obtain ⟨state', stepped, invariant', less⟩ := invariant.step top wellFormed backEdges
          obtain ⟨result, loop, empty, final⟩ := inductionHypothesis state' invariant' (by omega)
          exact ⟨result, by simp [DominanceLoop, top, stepped, loop], empty, final⟩

/-- Every edge has the dominator of its target above its source. -/
def Stable (graph : HGraph) (dominator : Nat → Option Nat) : Prop :=
  ∀ block < graph.num_blocks, ∀ successor ∈ graph.successors block,
    ∃ p, dominator successor = some p ∧ Above dominator p block

/-- What the first loop of `ComputeDominanceInformation` leaves: a dominator
tree holding every block, the reverse post order with each block once and
after the blocks with forward edges into it, and dominators either stable or
with a back edge that its header is not above. -/
structure FirstPass (graph : HGraph) (back_edges : Nat → List Nat)
    (dominator : Nat → Option Nat) (order : List Nat) : Prop where
  tree : DominatorTree graph dominator
  in_tree : ∀ block < graph.num_blocks, InTree graph dominator block
  order_nodup : order.Nodup
  mem_order : ∀ block, block ∈ order ↔ block < graph.num_blocks
  before : ∀ block ∈ order, ∀ source, graph.ForwardEdge back_edges source block →
    source ∈ order ∧ order.idxOf source < order.idxOf block
  stable_or_broken : graph.Stable dominator ∨
    ∃ source header, source ∈ back_edges header ∧ ¬ Above dominator header source

namespace OrderInvariant

variable {state : DominanceState} (invariant : OrderInvariant graph back_edges state)
  (empty : state.worklist = [])
include invariant empty

/-- Once the stack is empty, every successor of a pushed block has been
examined. -/
theorem examined_all {block : Nat} (pushed : block ∈ state.reverse_post_order) :
    (graph.successors block).take (state.successors_visited block) = graph.successors block := by
  rw [invariant.popped block pushed (by rw [empty]; exact List.not_mem_nil), List.take_length]

/-- Once the stack is empty, every block has been pushed: a block left out
with the largest rank would have all its forward edges examined. -/
theorem all_pushed (backEdges : graph.BackEdges back_edges) {block : Nat}
    (blockLt : block < graph.num_blocks) : block ∈ state.reverse_post_order := by
  obtain ⟨rank, ranked⟩ := backEdges.ranked
  by_contra absent
  obtain ⟨last, lastLeft, largest⟩ :=
    ((Finset.range graph.num_blocks).filter (· ∉ state.reverse_post_order)).exists_max_image rank
      ⟨block, Finset.mem_filter.mpr ⟨Finset.mem_range.mpr blockLt, absent⟩⟩
  obtain ⟨lastRange, lastAbsent⟩ := Finset.mem_filter.mp lastLeft
  -- every block with a forward edge into `last` has a larger rank, so it was pushed
  have examined : graph.ExaminedForwardInto back_edges state.successors_visited last =
      graph.ForwardPredecessors back_edges last := by
    refine Finset.sum_congr rfl fun source sourceRange => ?_
    split_ifs with back
    · rfl
    by_cases isEdge : last ∈ graph.successors source
    · have forward : graph.ForwardEdge back_edges source last :=
        ⟨Finset.mem_range.mp sourceRange, isEdge, back⟩
      have sourcePushed : source ∈ state.reverse_post_order := by
        by_contra sourceAbsent
        have := largest source (Finset.mem_filter.mpr ⟨sourceRange, sourceAbsent⟩)
        have := ranked source last forward
        omega
      rw [invariant.examined_all empty sourcePushed]
    · rw [List.count_eq_zero.mpr isEdge,
        List.count_eq_zero.mpr fun member => isEdge (List.mem_of_mem_take member)]
  have waiting := invariant.waiting last (Finset.mem_range.mp lastRange) lastAbsent
  have counted : graph.ExaminedForwardInto back_edges state.successors_visited last ≤
      graph.ExaminedInto state.successors_visited last :=
    ExaminedForwardInto_le_ExaminedInto _ _
  rw [examined, ← invariant.visits] at counted
  omega

/-- Once the stack is empty, the state is what `FirstPass` says. -/
theorem firstPass (backEdges : graph.BackEdges back_edges) :
    FirstPass graph back_edges state.dominator state.reverse_post_order where
  tree := invariant.tree
  in_tree block blockLt := invariant.in_tree block (invariant.all_pushed empty backEdges blockLt)
  order_nodup := invariant.order_nodup
  mem_order block := ⟨invariant.order_lt block, invariant.all_pushed empty backEdges⟩
  before := invariant.before
  stable_or_broken := by
    rcases invariant.stable_or_broken with stable | ⟨source, header, back, _, notAbove⟩
    · refine .inl fun block blockLt successor isEdge => stable block successor ?_
      rw [invariant.examined_all empty (invariant.all_pushed empty backEdges blockLt)]
      exact isEdge
    · exact .inr ⟨source, header, back, notAbove⟩

end OrderInvariant

/-- The first loop of `ComputeDominanceInformation` finishes within
`TraversalBound` iterations, with what `FirstPass` says. -/
theorem DominanceLoop_firstPass (wellFormed : graph.WellFormed)
    (backEdges : graph.BackEdges back_edges) :
    ∃ result, graph.DominanceLoop back_edges graph.TraversalBound
        { dominator := fun _ => none
          reverse_post_order := [graph.entry_block]
          visits := fun _ => 0
          successors_visited := fun _ => 0
          worklist := [graph.entry_block] } = some result ∧
      FirstPass graph back_edges result.dominator result.reverse_post_order := by
  obtain ⟨result, loop, empty, invariant⟩ :=
    DominanceLoop_spec wellFormed backEdges graph.TraversalBound _
      (OrderInvariant.initial wellFormed backEdges) OrderMeasure_initial.le
  exact ⟨result, loop, invariant.firstPass empty backEdges⟩

end HGraph

end ArtRuntime.Optimizing
