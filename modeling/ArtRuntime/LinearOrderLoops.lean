import ArtRuntime.LinearOrderKahn

namespace ArtRuntime.Optimizing

open ArtRuntime.Graph

/-!
# The blocks of each loop are consecutive in the linear order

`IsLinearOrderWellFormed`, which `LinearizeGraphInternal` checks when the
graph has no irreducible loop, asks that the blocks of each loop form one
segment of the linear order, starting with the header and ending with a back
edge.  `LoopsWellFormed` lists what the loop information of such a graph
provides: the loops are natural loops (`HLoopInformation::Populate`), nested,
each block in its innermost loop, and what `GraphChecker::HandleLoop` checks,
a pre-header with one successor, back edges inside their loop, and loop
blocks dominated by the header.

The argument rests on one invariant of the worklist, `Nested`: read from its
back, the loops of its blocks go outward.  `AddToListForLinearization`
inserts a block below the blocks whose loops do not contain its own, which
keeps the worklist sorted as long as the loop of the new block is comparable
with all the others; a block released by the current block has a loop that
contains the current one, unless it is the header of a loop whose pre-header
the current block is.  Then while a loop is open, some of its blocks wait in
the worklist, so its blocks are at the back of the worklist and nothing else
is placed before they are all placed: the blocks placed so far keep each
loop in one segment (`Contiguous`).  The header is placed first, as every
other block of the loop is reached from it along forward edges, and the last
block is a back edge, as the blocks of an inner loop are consecutive too.
-/

/-- What the loop information of a graph without irreducible loops
provides. -/
structure LoopsWellFormed (graph : HGraph) (back_edges : Nat → List Nat)
    (loops : LoopInformation) : Prop where
  header_of : ∀ block header, loops.loop_information block = some header →
    loops.loop_information header = some header
  mem_loop : ∀ block header, loops.loop_information block = some header →
    loops.blocks header block = true
  innermost : ∀ block header outer, loops.loop_information block = some header →
    loops.loop_information outer = some outer → loops.blocks outer block = true →
    loops.blocks outer header = true
  in_loop : ∀ header block, loops.loop_information header = some header →
    loops.blocks header block = true → loops.loop_information block ≠ none
  nested : ∀ first second block, loops.loop_information first = some first →
    loops.loop_information second = some second → loops.blocks first block = true →
    loops.blocks second block = true →
    loops.blocks first second = true ∨ loops.blocks second first = true
  subset : ∀ inner outer block, loops.loop_information inner = some inner →
    loops.loop_information outer = some outer → loops.blocks outer inner = true →
    loops.blocks inner block = true → loops.blocks outer block = true
  antisymm : ∀ first second, loops.loop_information first = some first →
    loops.loop_information second = some second → loops.blocks first second = true →
    loops.blocks second first = true → first = second
  -- `Populate`: the header and the blocks that reach a back edge without passing it
  natural : ∀ header block, loops.loop_information header = some header →
    (loops.blocks header block = true ↔ block = header ∨
      ∃ source ∈ back_edges header,
        Relation.ReflTransGen (EdgeAvoiding graph.successors header) block source)
  pre_header : ∀ pre_header header, loops.loop_information header = some header →
    graph.ForwardEdge back_edges pre_header header →
    graph.successors pre_header = [header] ∧
      ∀ outer, loops.loop_information outer = some outer →
        loops.blocks outer pre_header = true → loops.blocks outer header = true ∧ outer ≠ header
  back_edge_loop : ∀ source header, source ∈ back_edges header →
    loops.loop_information source = some header
  has_back_edge : ∀ header, loops.loop_information header = some header → back_edges header ≠ []
  blocks_lt : ∀ header block, loops.loop_information header = some header →
    loops.blocks header block = true → block < graph.num_blocks
  dominated : ∀ header block, loops.loop_information header = some header →
    loops.blocks header block = true → Dominates graph.successors graph.entry_block header block

namespace LoopsWellFormed

variable {graph : HGraph} {back_edges : Nat → List Nat} {loops : LoopInformation}
  (loopsWellFormed : LoopsWellFormed graph back_edges loops)
include loopsWellFormed

theorem header_mem {header : Nat} (isHeader : loops.loop_information header = some header) :
    loops.blocks header header = true :=
  loopsWellFormed.mem_loop header header isHeader

/-- A block of a loop other than its header has its predecessors in the
loop. -/
theorem closed {header block source : Nat} (isHeader : loops.loop_information header = some header)
    (member : loops.blocks header block = true) (notHeader : block ≠ header)
    (isEdge : block ∈ graph.successors source) : loops.blocks header source = true := by
  rcases (loopsWellFormed.natural header block isHeader).mp member with same | ⟨back, isBack, path⟩
  · exact absurd same notHeader
  · exact (loopsWellFormed.natural header source isHeader).mpr
      (.inr ⟨back, isBack, .head ⟨isEdge, notHeader⟩ path⟩)

/-- The headers of the back edges are loop headers. -/
theorem headers {block : Nat} (nonempty : back_edges block ≠ []) :
    loops.IsLoopHeader block = true := by
  obtain ⟨source, back⟩ := List.exists_mem_of_ne_nil _ nonempty
  have isHeader := loopsWellFormed.header_of source block
    (loopsWellFormed.back_edge_loop source block back)
  simp [LoopInformation.IsLoopHeader, isHeader]

/-- The entry block is in no loop. -/
theorem entry_not_mem (wellFormed : graph.WellFormed) (backEdges : graph.BackEdges back_edges)
    {header : Nat} (isHeader : loops.loop_information header = some header) :
    loops.blocks header graph.entry_block = false := by
  by_contra member
  have dominates := loopsWellFormed.dominated header _ isHeader (Bool.not_eq_false _ ▸ member)
  -- only the entry block dominates itself, and a header has a back edge into it
  have isEntry := dominates.eq_of_root
  obtain ⟨source, back⟩ :=
    List.exists_mem_of_ne_nil _ (loopsWellFormed.has_back_edge header isHeader)
  rw [isEntry] at back
  exact absurd (HGraph.back_edges_entry wellFormed backEdges) (List.ne_nil_of_mem back)

end LoopsWellFormed

/-- The loop `inner` lies within the loop `outer`, no loop standing for the
whole method. -/
def Within (loops : LoopInformation) : Option Nat → Option Nat → Prop
  | _, none => True
  | none, some _ => False
  | some inner, some outer => loops.blocks outer inner = true

namespace HGraph

variable {graph : HGraph} {back_edges : Nat → List Nat} {loops : LoopInformation}

/-- Read from its back, the loops of the worklist go outward. -/
def Nested (loops : LoopInformation) (state : LinearizeState) : Prop :=
  state.worklist.Pairwise fun a b =>
    Within loops (loops.loop_information a) (loops.loop_information b)

/-- The blocks placed so far hold the blocks of each loop in one segment. -/
def Contiguous (loops : LoopInformation) (state : LinearizeState) : Prop :=
  ∀ header, loops.loop_information header = some header →
    OneSegment (fun block => loops.blocks header block = true) state.linear_order

section Within

variable (loopsWellFormed : LoopsWellFormed graph back_edges loops)
include loopsWellFormed

/-- The test of `AddToListForLinearization` stops at a block whose loop
holds the loop of the block inserted. -/
theorem stops_iff (block current : Nat) :
    (InSameLoop (loops.loop_information block) (loops.loop_information current) ||
        !IsLoop (loops.loop_information current) ||
        IsInnerLoop loops (loops.loop_information current) (loops.loop_information block)) = true ↔
      Within loops (loops.loop_information block) (loops.loop_information current) := by
  cases currentLoop : loops.loop_information current with
  | none => simp [IsLoop, Within]
  | some outer =>
      have outerHeader := loopsWellFormed.header_of current outer currentLoop
      cases blockLoop : loops.loop_information block with
      | none => simp [InSameLoop, IsLoop, IsInnerLoop, Within]
      | some inner =>
          by_cases same : inner = outer
          · subst same
            simp [InSameLoop, Within, loopsWellFormed.header_mem outerHeader]
          · simp [InSameLoop, IsLoop, IsInnerLoop, Within, same]

/-- A block is in a loop when its innermost loop lies within it. -/
theorem mem_iff_within {header block : Nat} (isHeader : loops.loop_information header = some header) :
    loops.blocks header block = true ↔
      Within loops (loops.loop_information block) (loops.loop_information header) := by
  rw [isHeader]
  constructor
  · intro member
    obtain ⟨inner, blockLoop⟩ := Option.ne_none_iff_exists'.mp
      (loopsWellFormed.in_loop header block isHeader member)
    rw [blockLoop]
    exact loopsWellFormed.innermost block inner header blockLoop isHeader member
  · cases blockLoop : loops.loop_information block with
    | none => exact False.elim
    | some inner =>
        intro within
        exact loopsWellFormed.subset inner header block (loopsWellFormed.header_of block inner blockLoop)
          isHeader within (loopsWellFormed.mem_loop block inner blockLoop)

theorem within_trans {a b c : Nat}
    (ab : Within loops (loops.loop_information a) (loops.loop_information b))
    (bc : Within loops (loops.loop_information b) (loops.loop_information c)) :
    Within loops (loops.loop_information a) (loops.loop_information c) := by
  cases cLoop : loops.loop_information c with
  | none => trivial
  | some outer =>
      rw [cLoop] at bc
      cases bLoop : loops.loop_information b with
      | none => rw [bLoop] at bc; exact bc.elim
      | some middle =>
          rw [bLoop] at ab bc
          cases aLoop : loops.loop_information a with
          | none => rw [aLoop] at ab; exact ab.elim
          | some inner =>
              rw [aLoop] at ab
              exact loopsWellFormed.subset middle outer inner
                (loopsWellFormed.header_of b middle bLoop) (loopsWellFormed.header_of c outer cLoop)
                bc ab

/-- Two loops that hold a common loop are nested. -/
theorem within_comparable {a b c : Nat}
    (ca : Within loops (loops.loop_information c) (loops.loop_information a))
    (cb : Within loops (loops.loop_information c) (loops.loop_information b)) :
    Within loops (loops.loop_information a) (loops.loop_information b) ∨
      Within loops (loops.loop_information b) (loops.loop_information a) := by
  cases aLoop : loops.loop_information a with
  | none => exact .inr trivial
  | some first =>
      cases bLoop : loops.loop_information b with
      | none => exact .inl trivial
      | some second =>
          rw [aLoop] at ca
          rw [bLoop] at cb
          cases cLoop : loops.loop_information c with
          | none => rw [cLoop] at ca; exact ca.elim
          | some inner =>
              rw [cLoop] at ca cb
              exact (loopsWellFormed.nested first second inner
                (loopsWellFormed.header_of a first aLoop) (loopsWellFormed.header_of b second bLoop)
                ca cb).symm

/-- A forward edge into a block other than a loop header comes from within
the block's loop. -/
theorem within_of_forward {source block : Nat} (forward : graph.ForwardEdge back_edges source block)
    (notHeader : loops.loop_information block ≠ some block) :
    Within loops (loops.loop_information source) (loops.loop_information block) := by
  cases blockLoop : loops.loop_information block with
  | none => trivial
  | some header =>
      have isHeader := loopsWellFormed.header_of block header blockLoop
      have sourceIn := loopsWellFormed.closed isHeader (loopsWellFormed.mem_loop block header blockLoop)
        (fun same => notHeader (same ▸ blockLoop)) forward.2.1
      obtain ⟨inner, sourceLoop⟩ := Option.ne_none_iff_exists'.mp
        (loopsWellFormed.in_loop header source isHeader sourceIn)
      rw [sourceLoop]
      exact loopsWellFormed.innermost source inner header sourceLoop isHeader sourceIn

/-- The loop of a header lies within the loop of its pre-header. -/
theorem header_within_of_forward {source header : Nat}
    (forward : graph.ForwardEdge back_edges source header)
    (isHeader : loops.loop_information header = some header) :
    Within loops (loops.loop_information header) (loops.loop_information source) := by
  cases sourceLoop : loops.loop_information source with
  | none => trivial
  | some outer =>
      rw [isHeader]
      exact ((loopsWellFormed.pre_header source header isHeader forward).2 outer
        (loopsWellFormed.header_of source outer sourceLoop)
        (loopsWellFormed.mem_loop source outer sourceLoop)).1

/-- Inserting a block whose loop is comparable with the loop of every block
of a sorted worklist keeps it sorted. -/
theorem pairwise_AddToListForLinearization {worklist : List Nat} {block : Nat}
    (sorted : worklist.Pairwise fun a b =>
      Within loops (loops.loop_information a) (loops.loop_information b))
    (comparable : ∀ other ∈ worklist,
      Within loops (loops.loop_information block) (loops.loop_information other) ∨
        Within loops (loops.loop_information other) (loops.loop_information block)) :
    (AddToListForLinearization loops worklist block).Pairwise fun a b =>
      Within loops (loops.loop_information a) (loops.loop_information b) :=
  @pairwise_insertBefore Nat _ block
    (fun a b => Within loops (loops.loop_information a) (loops.loop_information b))
    (within_trans loopsWellFormed) worklist sorted
    (fun other _ => stops_iff loopsWellFormed block other) comparable

end Within

section Step

variable (loopsWellFormed : LoopsWellFormed graph back_edges loops)
  (wellFormed : graph.WellFormed) (backEdges : graph.BackEdges back_edges)
  (fits : ∀ block < graph.num_blocks, graph.NumberOfPredecessors block < 2 ^ 32)
include loopsWellFormed wellFormed backEdges fits

/-- One iteration keeps the worklist nested. -/
theorem Nested.step {state : LinearizeState} (settled : Settled graph back_edges state)
    {current : Nat} {rest : List Nat} (top : state.worklist = current :: rest)
    (nested : Nested loops state) : Nested loops (graph.LinearizeStep loops state) := by
  unfold Nested at nested
  rw [top, List.pairwise_cons] at nested
  obtain ⟨currentBelow, restSorted⟩ := nested
  by_cases preHeader : ∃ header, graph.ForwardEdge back_edges current header ∧
      loops.loop_information header = some header
  · -- the pre-header of a loop: its one successor is the header, inserted at the back
    obtain ⟨header, forward, isHeader⟩ := preHeader
    have single := (loopsWellFormed.pre_header current header isHeader forward).1
    rw [LinearizeStep_of_top top, single, List.foldl_cons, List.foldl_nil]
    unfold Nested
    rw [VisitSuccessor_worklist]
    split_ifs
    · refine pairwise_AddToListForLinearization loopsWellFormed restSorted fun other member => .inl ?_
      exact within_trans loopsWellFormed (header_within_of_forward loopsWellFormed forward isHeader)
        (currentBelow other member)
    · exact restSorted
  · -- every block released lies in a loop that holds the loop of `current`
    have released : ∀ successor, graph.ForwardEdge back_edges current successor →
        Within loops (loops.loop_information current) (loops.loop_information successor) :=
      fun successor forward => within_of_forward loopsWellFormed forward
        fun isHeader => preHeader ⟨successor, forward, isHeader⟩
    obtain ⟨-, kept, -⟩ := settled.step wellFormed backEdges fits top
      (fun visited => (visited.worklist.Pairwise fun a b =>
          Within loops (loops.loop_information a) (loops.loop_information b)) ∧
        ∀ other ∈ visited.worklist,
          Within loops (loops.loop_information current) (loops.loop_information other))
      (fun visited examined invariant placed remaining ⟨sorted, below⟩ => by
        rw [VisitSuccessor_worklist]
        split_ifs with hit
        · have within := released _ (invariant.forward_of_hit wellFormed backEdges fits placed
            remaining hit)
          refine ⟨pairwise_AddToListForLinearization loopsWellFormed sorted fun other member =>
            within_comparable loopsWellFormed within (below other member), fun other member => ?_⟩
          rcases mem_AddToListForLinearization.mp member with rfl | old
          · exact within
          · exact below other old
        · exact ⟨sorted, below⟩)
      ⟨restSorted, currentBelow⟩
    exact kept.1

omit fits in
/-- A block of a loop is placed after the header: walking back along forward
edges from it stays within the loop until the header, as the entry block is
in no loop. -/
theorem header_placed {order : List Nat}
    (before : ∀ block ∈ order, ∀ source, graph.ForwardEdge back_edges source block →
      source ∈ order ∧ order.idxOf source < order.idxOf block)
    {header : Nat} (isHeader : loops.loop_information header = some header) {block : Nat}
    (placed : block ∈ order) (member : loops.blocks header block = true) :
    header ∈ order ∧ order.idxOf header ≤ order.idxOf block := by
  obtain ⟨index, position⟩ : ∃ index, order.idxOf block = index := ⟨_, rfl⟩
  -- strong induction on the position of `block`
  induction index using Nat.strong_induction_on generalizing block with
  | _ index inductionHypothesis =>
      by_cases same : block = header
      · exact ⟨same ▸ placed, same ▸ le_refl _⟩
      have blockLt := loopsWellFormed.blocks_lt header block isHeader member
      have notEntry : block ≠ graph.entry_block := fun isEntry => by
        have outside := loopsWellFormed.entry_not_mem wellFormed backEdges isHeader
        rw [← isEntry, member] at outside
        exact Bool.noConfusion outside
      obtain ⟨source, forward⟩ := exists_forward_source backEdges blockLt notEntry
      obtain ⟨sourcePlaced, sourceBefore⟩ := before block placed source forward
      obtain ⟨headerPlaced, headerBefore⟩ := inductionHypothesis _ (position ▸ sourceBefore)
        sourcePlaced (loopsWellFormed.closed isHeader member same forward.2.1) rfl
      exact ⟨headerPlaced, by omega⟩

omit fits in
/-- While a loop is partly placed, one of its blocks waits in the worklist. -/
theorem Settled.waiting {state : LinearizeState} (settled : Settled graph back_edges state)
    {header : Nat} (isHeader : loops.loop_information header = some header) {placed unplaced : Nat}
    (placedIn : placed ∈ state.linear_order) (placedMember : loops.blocks header placed = true)
    (unplacedOut : unplaced ∉ state.linear_order) (unplacedMember : loops.blocks header unplaced = true) :
    ∃ block ∈ state.worklist, loops.blocks header block = true := by
  obtain ⟨examined, invariant, -⟩ := id settled
  have headerPlaced :=
    (header_placed loopsWellFormed wellFormed backEdges invariant.before isHeader placedIn placedMember).1
  -- the header is placed, so the blocks of the loop that are not have their sources in the loop
  exact settled.exists_waiting backEdges (fun block => loops.blocks header block = true)
    (loopsWellFormed.blocks_lt header unplaced isHeader unplacedMember) unplacedOut unplacedMember
    fun block _ blockMember blockAbsent forward _ =>
      loopsWellFormed.closed isHeader blockMember (fun same => blockAbsent (same ▸ headerPlaced))
        forward.2.1

omit fits in
/-- One iteration keeps each loop in one segment: the block placed is fresh,
and a block outside a loop is placed only once the loop is placed whole, as
a block of a partly placed loop would wait below it in the nested
worklist. -/
theorem Contiguous.step {state : LinearizeState} (settled : Settled graph back_edges state)
    {current : Nat} {rest : List Nat} (top : state.worklist = current :: rest)
    (nested : Nested loops state) (contiguous : Contiguous loops state) :
    Contiguous loops (graph.LinearizeStep loops state) := by
  intro header isHeader
  rw [LinearizeStep_of_top top, foldl_VisitSuccessor_linear_order]
  obtain ⟨examined, invariant, -⟩ := id settled
  by_cases member : loops.blocks header current = true
  · exact (contiguous header isHeader).append_of_mem member
      (invariant.worklist_fresh current (top ▸ List.mem_cons_self))
  refine (contiguous header isHeader).append_of_not member
    fun ⟨placed, placedIn, placedMember⟩ block blockMember => ?_
  by_contra absent
  obtain ⟨waiting, waitingIn, waitingMember⟩ :=
    settled.waiting loopsWellFormed wellFormed backEdges isHeader placedIn placedMember absent blockMember
  unfold Nested at nested
  rw [top] at waitingIn nested
  rcases List.mem_cons.mp waitingIn with rfl | later
  · exact member waitingMember
  · -- `current` is above `waiting`, so its loop lies within the loop of `waiting`
    have below := (List.pairwise_cons.mp nested).1 waiting later
    exact member ((mem_iff_within loopsWellFormed isHeader).mpr
      (within_trans loopsWellFormed below ((mem_iff_within loopsWellFormed isHeader).mp waitingMember)))

end Step

section Scan

variable {header num_blocks : Nat}

/-- The scan passes the blocks outside the loop before its first block and
after its last. -/
theorem CheckLoopOrder_append_outside {found : Nat} (bound : found = 0 ∨ found = num_blocks)
    (rest : List Nat) :
    ∀ {outside : List Nat}, (∀ block ∈ outside, loops.blocks header block = false) →
      CheckLoopOrder loops back_edges header num_blocks found (outside ++ rest) =
        CheckLoopOrder loops back_edges header num_blocks found rest
  | [], _ => rfl
  | block :: more, outside => by
      rw [List.cons_append, CheckLoopOrder, if_neg (by simp [outside block List.mem_cons_self]),
        if_neg (by omega)]
      exact CheckLoopOrder_append_outside bound rest fun other member =>
        outside other (List.mem_cons_of_mem block member)

/-- The scan passes a run of the loop's blocks that starts with the header
when none is found yet, ends with a back edge and completes the count. -/
theorem CheckLoopOrder_segment {suffix : List Nat}
    (after : CheckLoopOrder loops back_edges header num_blocks num_blocks suffix = true) :
    ∀ (segment : List Nat) (found : Nat), (∀ block ∈ segment, loops.blocks header block = true) →
      found + segment.length = num_blocks → (found = 0 → segment.head? = some header) →
      (∀ last, segment.getLast? = some last → last ∈ back_edges header) →
      CheckLoopOrder loops back_edges header num_blocks found (segment ++ suffix) = true
  | [], found, _, length, _, _ => by
      rw [List.length_nil, Nat.add_zero] at length
      rw [List.nil_append, length]
      exact after
  | block :: more, found, members, length, first, last => by
      rw [List.length_cons] at length
      rw [List.cons_append, CheckLoopOrder, if_pos (members block List.mem_cons_self)]
      have notFirst : ¬ (found + 1 = 1 ∧ block ≠ header) := fun ⟨one, other⟩ =>
        other (Option.some.inj (first (by omega)))
      have notLast : ¬ (found + 1 = num_blocks ∧ block ∉ back_edges header) := by
        rintro ⟨complete, notBack⟩
        -- the count is complete, so `block` is the last of the run
        obtain rfl : more = [] := List.eq_nil_of_length_eq_zero (by omega)
        exact notBack (last block rfl)
      rw [if_neg notFirst, if_neg notLast]
      refine CheckLoopOrder_segment after more (found + 1)
        (fun other member => members other (List.mem_cons_of_mem block member)) (by omega)
        (fun zero => absurd zero (Nat.succ_ne_zero found)) fun final isLast => last final ?_
      rw [List.getLast?_cons, isLast]
      rfl

/-- The scan accepts a linear order in which the blocks of the loop form one
segment, starting with the header and ending with a back edge. -/
theorem CheckLoopOrder_of_segment {pre segment suf : List Nat}
    (preOut : ∀ block ∈ pre, loops.blocks header block = false)
    (segmentIn : ∀ block ∈ segment, loops.blocks header block = true)
    (sufOut : ∀ block ∈ suf, loops.blocks header block = false)
    (length : segment.length = num_blocks) (first : segment.head? = some header)
    (last : ∀ block, segment.getLast? = some block → block ∈ back_edges header) :
    CheckLoopOrder loops back_edges header num_blocks 0 (pre ++ segment ++ suf) = true := by
  have after : CheckLoopOrder loops back_edges header num_blocks num_blocks suf = true := by
    have skipped : CheckLoopOrder loops back_edges header num_blocks num_blocks (suf ++ []) =
        CheckLoopOrder loops back_edges header num_blocks num_blocks [] :=
      CheckLoopOrder_append_outside (.inr rfl) [] sufOut
    rw [List.append_nil] at skipped
    rw [skipped]
    rfl
  rw [List.append_assoc, CheckLoopOrder_append_outside (.inl rfl) _ preOut]
  exact CheckLoopOrder_segment after segment 0 segmentIn (by omega) (fun _ => first) last

end Scan

section Final

variable (loopsWellFormed : LoopsWellFormed graph back_edges loops)
  (wellFormed : graph.WellFormed) (backEdges : graph.BackEdges back_edges) {order : List Nat}
  (topological : TopologicalOrder graph back_edges order)
include loopsWellFormed wellFormed backEdges topological

omit wellFormed backEdges in
theorem TopologicalOrder.mem_of_loop {header block : Nat}
    (isHeader : loops.loop_information header = some header)
    (member : loops.blocks header block = true) : block ∈ order :=
  (topological.mem block).mpr (loopsWellFormed.blocks_lt header block isHeader member)

/-- The header comes first among the blocks of its loop. -/
theorem TopologicalOrder.header_first {header block : Nat}
    (isHeader : loops.loop_information header = some header)
    (member : loops.blocks header block = true) : order.idxOf header ≤ order.idxOf block :=
  (header_placed loopsWellFormed wellFormed backEdges
    (fun block _ source forward =>
      ⟨(topological.mem source).mpr forward.1, topological.before source block forward⟩)
    isHeader (topological.mem_of_loop loopsWellFormed isHeader member)
    member).2

/-- The block of a loop placed last is the source of one of its back edges:
a forward edge out of it would lead to a later block of the loop, and a back
edge out of it to an inner header would have the inner loop left by a
forward edge to a block placed between two blocks of the inner loop. -/
theorem TopologicalOrder.mem_back_edges_of_latest
    (contiguous : ∀ header, loops.loop_information header = some header →
      OneSegment (fun block => loops.blocks header block = true) order)
    {header last : Nat} (isHeader : loops.loop_information header = some header)
    (member : loops.blocks header last = true)
    (latest : ∀ block, loops.blocks header block = true → order.idxOf block ≤ order.idxOf last) :
    last ∈ back_edges header := by
  have placed : ∀ {header block}, loops.loop_information header = some header →
      loops.blocks header block = true → block ∈ order :=
    topological.mem_of_loop loopsWellFormed
  by_cases isHead : last = header
  · -- only the header is placed: the source of its back edge is the header
    obtain ⟨source, back⟩ :=
      List.exists_mem_of_ne_nil _ (loopsWellFormed.has_back_edge header isHeader)
    have sourceMember :=
      loopsWellFormed.mem_loop source header (loopsWellFormed.back_edge_loop source header back)
    have same : source = last := (List.idxOf_inj (placed isHeader sourceMember)).mp
      (Nat.le_antisymm (latest source sourceMember)
        (isHead ▸ topological.header_first loopsWellFormed wellFormed backEdges isHeader sourceMember))
    exact same ▸ back
  obtain ⟨source, back, path⟩ :=
    ((loopsWellFormed.natural header last isHeader).mp member).resolve_left isHead
  rcases Relation.ReflTransGen.cases_head path with same | ⟨next, ⟨isEdge, nextNotHeader⟩, rest⟩
  · exact same ▸ back
  have nextMember : loops.blocks header next = true :=
    (loopsWellFormed.natural header next isHeader).mpr (.inr ⟨source, back, rest⟩)
  by_cases backEdge : last ∈ back_edges next
  · -- `next` heads an inner loop that holds `last` but not `source`
    exfalso
    have lastLoop := loopsWellFormed.back_edge_loop last next backEdge
    have innerHeader := loopsWellFormed.header_of last next lastLoop
    have lastInner := loopsWellFormed.mem_loop last next lastLoop
    have sourceOut : loops.blocks next source ≠ true := fun sourceIn =>
      nextNotHeader (loopsWellFormed.antisymm next header innerHeader isHeader
        (loopsWellFormed.innermost source header next (loopsWellFormed.back_edge_loop source header back)
          innerHeader sourceIn) nextMember)
    obtain ⟨exit, target, exitIn, ⟨exitEdge, -⟩, targetOut, targetRest⟩ :=
      @exists_exit Nat _ (fun block => loops.blocks next block = true) next source rest
        (loopsWellFormed.header_mem innerHeader) sourceOut
    have targetMember : loops.blocks header target = true :=
      (loopsWellFormed.natural header target isHeader).mpr (.inr ⟨source, back, targetRest⟩)
    -- the edge that leaves the inner loop is a forward edge
    have forward : graph.ForwardEdge back_edges exit target :=
      ⟨loopsWellFormed.blocks_lt next exit innerHeader exitIn, exitEdge, fun exitBack =>
        targetOut (loopsWellFormed.innermost exit target next
          (loopsWellFormed.back_edge_loop exit target exitBack) innerHeader exitIn)⟩
    have targetBefore : order.idxOf target < order.idxOf last :=
      Nat.lt_of_le_of_ne (latest target targetMember) fun same =>
        targetOut ((List.idxOf_inj (placed isHeader targetMember)).mp same ▸ lastInner)
    exact targetOut ((contiguous next innerHeader).between (placed isHeader targetMember)
      (placed isHeader member) exitIn lastInner (topological.before exit target forward) targetBefore)
  · -- a forward edge from `last` leads to a block of the loop placed later
    have forward : graph.ForwardEdge back_edges last next :=
      ⟨loopsWellFormed.blocks_lt header last isHeader member, isEdge, backEdge⟩
    have := topological.before last next forward
    have := latest next nextMember
    omega

/-- A topological order that holds each loop in one segment passes the check
of `IsLinearOrderWellFormed`. -/
theorem TopologicalOrder.isLinearOrderWellFormed
    (contiguous : ∀ header, loops.loop_information header = some header →
      OneSegment (fun block => loops.blocks header block = true) order) :
    IsLinearOrderWellFormed graph loops back_edges order = true := by
  unfold IsLinearOrderWellFormed
  refine List.all_eq_true.mpr fun header _ => ?_
  by_cases isHeader : loops.loop_information header = some header
  case neg => simp [LoopInformation.IsLoopHeader, isHeader]
  have isLoopHeader : loops.IsLoopHeader header = true := by
    simp [LoopInformation.IsLoopHeader, isHeader]
  rw [isLoopHeader, Bool.not_true, Bool.false_or]
  obtain ⟨pre, segment, suf, split, preOut, segmentIn, sufOut, -⟩ := contiguous header isHeader
  have placed : ∀ {block}, loops.blocks header block = true → block ∈ order :=
    topological.mem_of_loop loopsWellFormed isHeader
  -- every block of the loop is in the segment, once
  have inSegment : ∀ block, loops.blocks header block = true → block ∈ segment := fun block member => by
    have present := placed member
    rw [split, List.mem_append, List.mem_append] at present
    rcases present with (inPre | done) | inSuf
    · exact absurd member (preOut block inPre)
    · exact done
    · exact absurd member (sufOut block inSuf)
  have nodup := topological.nodup
  rw [split] at nodup
  have headerMember := loopsWellFormed.header_mem isHeader
  obtain ⟨first, more, rfl⟩ := List.exists_cons_of_ne_nil (List.ne_nil_of_mem (inSegment header headerMember))
  rw [split]
  refine CheckLoopOrder_of_segment (fun block inPre => Bool.eq_false_iff.mpr (preOut block inPre))
    segmentIn (fun block inSuf => Bool.eq_false_iff.mpr (sufOut block inSuf)) ?length ?first ?last
  case length =>
    refine List.Perm.length_eq ((List.perm_ext_iff_of_nodup
      (List.nodup_append.mp (List.nodup_append.mp nodup).1).2.1
      ((List.nodup_range).filter _)).mpr fun block => ?_)
    rw [List.mem_filter, List.mem_range]
    exact ⟨fun inSeg => ⟨loopsWellFormed.blocks_lt header block isHeader (segmentIn block inSeg),
      segmentIn block inSeg⟩, fun ⟨_, member⟩ => inSegment block member⟩
  case first =>
    -- the header is placed no later than the first block of the segment
    by_contra other
    have later : header ∈ more := (List.mem_cons.mp (inSegment header headerMember)).resolve_left
      fun same => other (by rw [same]; rfl)
    have before : (pre ++ [first] ++ (more ++ suf)).idxOf first <
        (pre ++ [first] ++ (more ++ suf)).idxOf header :=
      OneSegment.idxOf_lt_idxOf (by simp) fun inFront => (List.mem_append.mp inFront).elim
        (fun inPre => preOut header inPre headerMember)
        fun isFirst => other (by rw [List.mem_singleton.mp isFirst]; rfl)
    have firstAfter :=
      topological.header_first loopsWellFormed wellFormed backEdges isHeader (segmentIn first List.mem_cons_self)
    rw [split] at firstAfter
    simp only [List.append_assoc, List.cons_append, List.nil_append] at before firstAfter
    omega
  case last =>
    intro last isLast
    obtain ⟨init, initSplit⟩ := List.getLast?_eq_some_iff.mp isLast
    have lastMember := segmentIn last (by rw [initSplit]; exact List.mem_append_right _ (List.mem_singleton_self last))
    refine topological.mem_back_edges_of_latest loopsWellFormed wellFormed backEdges contiguous isHeader
      lastMember fun block member => ?_
    have inSeg := inSegment block member
    rw [initSplit] at inSeg nodup
    rcases List.mem_append.mp inSeg with early | isLastBlock
    · -- `block` comes before `last` in the segment
      have lastOut : last ∉ pre ++ init := fun inFront => (List.mem_append.mp inFront).elim
        (fun inPre => preOut last inPre lastMember)
        fun inInit => (List.nodup_append.mp (List.nodup_append.mp nodup).1).2.1 |>
          fun segmentNodup => (List.nodup_append.mp segmentNodup).2.2 last inInit last
            (List.mem_singleton_self last) rfl
      have before : (pre ++ init ++ ([last] ++ suf)).idxOf block <
          (pre ++ init ++ ([last] ++ suf)).idxOf last :=
        OneSegment.idxOf_lt_idxOf (List.mem_append_right _ early) lastOut
      rw [split, initSplit]
      simp only [List.append_assoc] at before ⊢
      omega
    · rw [List.mem_singleton.mp isLastBlock]

end Final

section SimpleLoop

theorem simpleLoopInformation_loop_information {block header : Nat} :
    simpleLoopInformation.loop_information block = some header ↔
      (block = 1 ∨ block = 2) ∧ header = 1 := by
  rcases block with _ | _ | _ | block <;> simp [simpleLoopInformation] <;> omega

theorem simpleLoopInformation_blocks {header block : Nat} :
    simpleLoopInformation.blocks header block = true ↔ header = 1 ∧ (block = 1 ∨ block = 2) := by
  simp [simpleLoopInformation]

/-- The loop of `simpleLoop` is the natural loop of its back edge, headed by
block 1 and entered from block 0 alone. -/
theorem simpleLoop_loopsWellFormed :
    LoopsWellFormed simpleLoop simpleLoopBackEdges simpleLoopInformation where
  header_of block header inLoop := by
    rw [simpleLoopInformation_loop_information] at inLoop ⊢
    omega
  mem_loop block header inLoop := by
    rw [simpleLoopInformation_loop_information] at inLoop
    rw [simpleLoopInformation_blocks]
    omega
  innermost block header outer inLoop isHeader member := by
    rw [simpleLoopInformation_loop_information] at inLoop isHeader
    rw [simpleLoopInformation_blocks] at member ⊢
    omega
  in_loop header block isHeader member := by
    rw [simpleLoopInformation_blocks] at member
    rw [Option.ne_none_iff_exists']
    exact ⟨1, simpleLoopInformation_loop_information.mpr ⟨member.2, rfl⟩⟩
  nested first second block firstHeader secondHeader _ _ := by
    rw [simpleLoopInformation_loop_information] at firstHeader secondHeader
    rw [simpleLoopInformation_blocks, simpleLoopInformation_blocks]
    omega
  subset inner outer block innerHeader outerHeader _ member := by
    rw [simpleLoopInformation_loop_information] at innerHeader outerHeader
    rw [simpleLoopInformation_blocks] at member ⊢
    omega
  antisymm first second firstHeader secondHeader _ _ := by
    rw [simpleLoopInformation_loop_information] at firstHeader secondHeader
    omega
  natural header block isHeader := by
    obtain ⟨-, rfl⟩ := simpleLoopInformation_loop_information.mp isHeader
    rw [simpleLoopInformation_blocks]
    constructor
    · rintro ⟨-, rfl | rfl⟩
      · exact .inl rfl
      · exact .inr ⟨2, by decide, .refl⟩
    · rintro (rfl | ⟨source, back, path⟩)
      · exact ⟨rfl, .inl rfl⟩
      obtain ⟨rfl, -⟩ := mem_simpleLoopBackEdges.mp back
      refine ⟨rfl, ?_⟩
      -- a path that avoids the header into block 2 starts at block 1 or 2
      rcases Relation.ReflTransGen.cases_head path with rfl | ⟨next, ⟨isEdge, notHeader⟩, -⟩
      · exact .inr rfl
      · -- block 0 enters the header itself
        rcases block with _ | _ | _ | _ | block <;> simp [simpleLoop] at isEdge ⊢
        exact notHeader isEdge
  pre_header pre_header header isHeader forward := by
    obtain ⟨-, rfl⟩ := simpleLoopInformation_loop_information.mp isHeader
    obtain ⟨preLt, isEdge, notBack⟩ := forward
    -- block 0 alone has a forward edge into the header
    obtain rfl : pre_header = 0 := by
      change pre_header < 4 at preLt
      interval_cases pre_header <;> simp_all [simpleLoop, simpleLoopBackEdges]
    exact ⟨rfl, fun outer _ member => by simp [simpleLoopInformation] at member⟩
  back_edge_loop source header back := by
    obtain ⟨rfl, rfl⟩ := mem_simpleLoopBackEdges.mp back
    rfl
  has_back_edge header isHeader := by
    obtain ⟨-, rfl⟩ := simpleLoopInformation_loop_information.mp isHeader
    decide
  blocks_lt header block _ member := by
    rw [simpleLoopInformation_blocks] at member
    show block < 4
    omega
  dominated header block isHeader member path chain last := by
    obtain ⟨-, rfl⟩ := simpleLoopInformation_loop_information.mp isHeader
    rw [simpleLoopInformation_blocks] at member
    cases path with
    | nil =>
        simp only [List.getLast_singleton] at last
        change 0 = block at last
        omega
    | cons next more =>
        -- the path leaves the entry block through the header
        have edge := (List.isChain_cons_cons.mp chain).1
        have isHeader : next = 1 := by simpa [Graph.Edge, simpleLoop] using edge
        simp [isHeader]

end SimpleLoop

/-- With the loop information of a graph without irreducible loops,
`LinearizeGraphInternal` places the blocks of each loop consecutively, the
header first and the source of a back edge last: the check of
`IsLinearOrderWellFormed` holds of its result. -/
theorem LinearizeGraphInternal_loops_consecutive (wellFormed : graph.WellFormed)
    (backEdges : graph.BackEdges back_edges)
    (loopsWellFormed : LoopsWellFormed graph back_edges loops)
    {reverse_post_order : List Nat} (order_nodup : reverse_post_order.Nodup)
    (mem_order : ∀ block, block ∈ reverse_post_order ↔ block < graph.num_blocks)
    (fits : ∀ block < graph.num_blocks, graph.NumberOfPredecessors block < 2 ^ 32) :
    ∃ linear_order,
      graph.LinearizeGraphInternal loops back_edges reverse_post_order = some linear_order ∧
        IsLinearOrderWellFormed graph loops back_edges linear_order = true := by
  -- the worklist stays nested and the loops placed so far stay in one segment each
  obtain ⟨result, internal, settled, ⟨-, contiguous⟩, empty⟩ :=
    LinearizeGraphInternal_spec wellFormed backEdges fits
      (fun _ nonempty => loopsWellFormed.headers nonempty) order_nodup mem_order
      (fun state => Nested loops state ∧ Contiguous loops state)
      (fun _ _ _ settled top ⟨nested, contiguous⟩ =>
        ⟨Nested.step loopsWellFormed wellFormed backEdges fits settled top nested,
          Contiguous.step loopsWellFormed wellFormed backEdges settled top nested contiguous⟩)
      ⟨List.pairwise_singleton _ _, fun _ _ => OneSegment.nil⟩
  exact ⟨result.linear_order, internal,
    (settled.topologicalOrder wellFormed backEdges empty).isLinearOrderWellFormed loopsWellFormed
      wellFormed backEdges contiguous⟩

/-- The loop of `simpleLoop` is placed as blocks 1 and 2, in that order. -/
theorem simpleLoop_loops_consecutive :
    ∃ linear_order,
      simpleLoop.LinearizeGraphInternal simpleLoopInformation simpleLoopBackEdges [0, 1, 2, 3] =
        some linear_order ∧
      IsLinearOrderWellFormed simpleLoop simpleLoopInformation simpleLoopBackEdges linear_order = true :=
  LinearizeGraphInternal_loops_consecutive simpleLoop_wellFormed simpleLoop_backEdges
    simpleLoop_loopsWellFormed (by decide) (fun block => by simp [simpleLoop]; omega) (by decide)

end HGraph

end ArtRuntime.Optimizing
