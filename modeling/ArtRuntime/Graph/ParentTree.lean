import Mathlib

namespace ArtRuntime.Graph

/-!
# Parent pointers

A forest given by a partial parent function.  `Above parent a b` says that
`a` is `b` or one of its ancestors, `DepthIs parent b d` that the chain of
parents from `b` ends at a root after `d` steps, and `Ancestor parent i b` is
the ancestor `i` steps up.  Where every chain ends the ancestors of a vertex
form a chain, the nearest common ancestor of two vertices is reached by
walking up from both at equal depth, and moving a vertex under an ancestor of
its parent keeps every chain finite and adds no ancestor to any vertex.
-/

variable {α : Type} (parent : α → Option α)

/-- `a` is `b` or an ancestor of `b`. -/
inductive Above (a : α) : α → Prop
  | refl : Above a a
  | up {b p : α} : parent b = some p → Above a p → Above a b

/-- The chain of parents from `b` reaches a root in `depth` steps. -/
inductive DepthIs : α → Nat → Prop
  | root {b : α} : parent b = none → DepthIs b 0
  | up {b p : α} {depth : Nat} : parent b = some p → DepthIs p depth → DepthIs b (depth + 1)

/-- The ancestor `steps` steps up from `b`. -/
def Ancestor : Nat → α → Option α
  | 0, b => some b
  | steps + 1, b => (parent b).bind (Ancestor steps)

/-- `common` is above `first` and `second`, below every other such vertex. -/
structure NearestCommonAbove (common first second : α) : Prop where
  above_first : Above parent common first
  above_second : Above parent common second
  nearest : ∀ other, Above parent other first → Above parent other second →
    Above parent other common

variable {parent}

section Above

theorem Above.trans {a b c : α} (first : Above parent a b) (second : Above parent b c) :
    Above parent a c := by
  induction second with
  | refl => exact first
  | up hasParent _ inductionHypothesis => exact .up hasParent inductionHypothesis

theorem Above.of_parent {b p : α} (hasParent : parent b = some p) : Above parent p b :=
  .up hasParent .refl

/-- Strictly above `b` is above its parent. -/
theorem Above.parent_of_ne {a b : α} (above : Above parent a b) (differs : a ≠ b) :
    ∃ p, parent b = some p ∧ Above parent a p := by
  cases above with
  | refl => exact absurd rfl differs
  | up hasParent above => exact ⟨_, hasParent, above⟩

/-- Only a root is above a root. -/
theorem Above.eq_of_root {a b : α} (above : Above parent a b) (isRoot : parent b = none) :
    a = b := by
  by_contra differs
  obtain ⟨p, hasParent, _⟩ := above.parent_of_ne differs
  rw [isRoot] at hasParent
  cases hasParent

/-- The vertices above one vertex form a chain. -/
theorem Above.total {a b c : α} (first : Above parent a c) (second : Above parent b c) :
    Above parent a b ∨ Above parent b a := by
  induction first generalizing b with
  | refl => exact .inr second
  | up hasParent _ inductionHypothesis =>
      cases second with
      | refl => exact .inl (.up hasParent ‹_›)
      | up hasParent' above =>
          rw [hasParent] at hasParent'
          cases hasParent'
          exact inductionHypothesis above

end Above

section Depth

theorem DepthIs.unique {b : α} {depth depth' : Nat} (first : DepthIs parent b depth)
    (second : DepthIs parent b depth') : depth = depth' := by
  induction first generalizing depth' with
  | root isRoot =>
      cases second with
      | root _ => rfl
      | up hasParent _ => rw [isRoot] at hasParent; cases hasParent
  | up hasParent _ inductionHypothesis =>
      cases second with
      | root isRoot => rw [isRoot] at hasParent; cases hasParent
      | up hasParent' rest =>
          rw [hasParent] at hasParent'
          cases hasParent'
          rw [inductionHypothesis rest]

/-- No vertex with a finite chain is its own parent. -/
theorem DepthIs.parent_ne {b p : α} {depth : Nat} (hasDepth : DepthIs parent b depth)
    (hasParent : parent b = some p) : p ≠ b := by
  rintro rfl
  cases hasDepth with
  | root isRoot => rw [isRoot] at hasParent; cases hasParent
  | up hasParent' rest =>
      rw [hasParent, Option.some.injEq] at hasParent'
      subst hasParent'
      have := DepthIs.unique rest (.up hasParent rest)
      omega

/-- A vertex above `b` is no deeper than `b`, and as deep only when it is
`b`. -/
theorem Above.depth_le {a b : α} (above : Above parent a b) {depth : Nat}
    (hasDepth : DepthIs parent b depth) :
    ∃ depthAbove ≤ depth, DepthIs parent a depthAbove ∧ (depthAbove = depth → a = b) := by
  induction above generalizing depth with
  | refl => exact ⟨depth, le_refl _, hasDepth, fun _ => rfl⟩
  | up hasParent _ inductionHypothesis =>
      cases hasDepth with
      | root isRoot => rw [isRoot] at hasParent; cases hasParent
      | up hasParent' parentDepth =>
          rw [hasParent] at hasParent'
          cases hasParent'
          obtain ⟨depthAbove, le, aDepth, _⟩ := inductionHypothesis parentDepth
          exact ⟨depthAbove, by omega, aDepth, fun same => by omega⟩

theorem Above.antisymm {a b : α} (first : Above parent a b) (second : Above parent b a)
    {depth : Nat} (hasDepth : DepthIs parent b depth) : a = b := by
  obtain ⟨depthA, le, aDepth, same⟩ := first.depth_le hasDepth
  obtain ⟨depthB, le', bDepth, _⟩ := second.depth_le aDepth
  exact same (by rw [DepthIs.unique bDepth hasDepth] at le'; omega)

/-- Two vertices at one depth with one above the other are equal. -/
theorem Above.eq_of_depth {a b : α} (above : Above parent a b) {depth : Nat}
    (aDepth : DepthIs parent a depth) (bDepth : DepthIs parent b depth) : a = b := by
  obtain ⟨depthAbove, _, hasDepth, same⟩ := above.depth_le bDepth
  exact same (DepthIs.unique hasDepth aDepth)

/-- Of two vertices above one vertex, the shallower is above the other. -/
theorem Above.of_depth_le {a b c : α} (first : Above parent a c) (second : Above parent b c)
    {depthA depthB : Nat} (aDepth : DepthIs parent a depthA) (bDepth : DepthIs parent b depthB)
    (shallower : depthA ≤ depthB) : Above parent a b := by
  rcases first.total second with above | below
  · exact above
  · obtain ⟨depthAbove, le, hasDepth, same⟩ := below.depth_le aDepth
    rw [DepthIs.unique hasDepth bDepth] at le same
    rw [same (by omega)]
    exact .refl

theorem DepthIs.ancestor {b : α} {depth : Nat} (hasDepth : DepthIs parent b depth) :
    ∀ steps ≤ depth,
      ∃ a, Ancestor parent steps b = some a ∧ Above parent a b ∧ DepthIs parent a (depth - steps) := by
  induction hasDepth with
  | root _ =>
      intro steps le
      obtain rfl : steps = 0 := by omega
      exact ⟨_, rfl, .refl, .root ‹_›⟩
  | @up b p depth hasParent parentDepth inductionHypothesis =>
      intro steps le
      cases steps with
      | zero => exact ⟨b, rfl, .refl, .up hasParent parentDepth⟩
      | succ steps =>
          obtain ⟨a, found, above, aDepth⟩ := inductionHypothesis steps (by omega)
          refine ⟨a, by rw [Ancestor, hasParent, Option.bind_some, found], .up hasParent above, ?_⟩
          rwa [show depth + 1 - (steps + 1) = depth - steps by omega]

/-- A chain inside a finite set that holds every parent is shorter than the
set. -/
theorem DepthIs.lt_card [DecidableEq α] {vertices : Finset α}
    (closed : ∀ b p, b ∈ vertices → parent b = some p → p ∈ vertices)
    {b : α} (member : b ∈ vertices) {depth : Nat} (hasDepth : DepthIs parent b depth) :
    depth < vertices.card := by
  have chain : ∀ steps ≤ depth, ∃ a, Ancestor parent steps b = some a ∧ a ∈ vertices ∧
      DepthIs parent a (depth - steps) := by
    intro steps le
    obtain ⟨a, found, above, aDepth⟩ := hasDepth.ancestor steps le
    -- every vertex above a member of `vertices` is a member
    have inside : ∀ {x y : α}, Above parent x y → y ∈ vertices → x ∈ vertices := by
      intro x y above yMember
      induction above with
      | refl => exact yMember
      | up hasParent _ inductionHypothesis => exact inductionHypothesis (closed _ _ yMember hasParent)
    exact ⟨a, found, inside above member, aDepth⟩
  let step : Nat → α := fun steps => (Ancestor parent steps b).getD b
  have maps : ∀ steps ∈ Finset.range (depth + 1), step steps ∈ vertices := by
    intro steps range
    obtain ⟨a, found, aMember, _⟩ := chain steps (by simpa [Nat.lt_succ_iff] using range)
    simp only [step, found, Option.getD_some]
    exact aMember
  have injective : Set.InjOn step (Finset.range (depth + 1)) := by
    intro first firstRange second secondRange same
    simp only [Finset.coe_range, Set.mem_Iio] at firstRange secondRange
    obtain ⟨a, found, _, aDepth⟩ := chain first (by omega)
    obtain ⟨a', found', _, aDepth'⟩ := chain second (by omega)
    simp only [step, found, found', Option.getD_some] at same
    subst same
    have := DepthIs.unique aDepth aDepth'
    omega
  have := Finset.card_le_card_of_injOn step maps injective
  rw [Finset.card_range] at this
  omega

end Depth

section Nearest

/-- Vertices at one depth with a common ancestor have a nearest one, reached
by walking up from both. -/
theorem NearestCommonAbove.of_parents {first second firstParent secondParent common : α}
    (differs : first ≠ second)
    (firstHas : parent first = some firstParent) (secondHas : parent second = some secondParent)
    {depth : Nat} (firstDepth : DepthIs parent first depth) (secondDepth : DepthIs parent second depth)
    (nearest : NearestCommonAbove parent common firstParent secondParent) :
    NearestCommonAbove parent common first second := by
  refine ⟨.up firstHas nearest.above_first, .up secondHas nearest.above_second,
    fun other aboveFirst aboveSecond => ?_⟩
  -- an ancestor of both at their depth would make them equal
  have notFirst : other ≠ first := by
    rintro rfl
    exact differs (aboveSecond.eq_of_depth firstDepth secondDepth)
  have notSecond : other ≠ second := by
    rintro rfl
    exact differs (aboveFirst.eq_of_depth secondDepth firstDepth).symm
  obtain ⟨p, hasParent, aboveParent⟩ := aboveFirst.parent_of_ne notFirst
  obtain ⟨q, hasParent', aboveParent'⟩ := aboveSecond.parent_of_ne notSecond
  rw [firstHas, Option.some.injEq] at hasParent
  rw [secondHas, Option.some.injEq] at hasParent'
  subst hasParent hasParent'
  exact nearest.nearest other aboveParent aboveParent'

theorem NearestCommonAbove.self (vertex : α) : NearestCommonAbove parent vertex vertex vertex :=
  ⟨.refl, .refl, fun _ above _ => above⟩

/-- Walking the deeper vertex up to the other's depth keeps the common
ancestors. -/
theorem NearestCommonAbove.of_ancestor {first second lifted common : α} {steps : Nat}
    {depthSecond : Nat}
    (firstDepth : DepthIs parent first (depthSecond + steps))
    (secondDepth : DepthIs parent second depthSecond)
    (found : Ancestor parent steps first = some lifted)
    (nearest : NearestCommonAbove parent common lifted second) :
    NearestCommonAbove parent common first second := by
  obtain ⟨lifted', found', liftedAbove, liftedDepth⟩ := firstDepth.ancestor steps (by omega)
  rw [found, Option.some.injEq] at found'
  subst found'
  rw [show depthSecond + steps - steps = depthSecond by omega] at liftedDepth
  refine ⟨nearest.above_first.trans liftedAbove, nearest.above_second,
    fun other aboveFirst aboveSecond => nearest.nearest other ?_ aboveSecond⟩
  -- an ancestor of `second` is no deeper than `lifted`, so it is above it
  obtain ⟨depthOther, le, otherDepth, _⟩ := aboveSecond.depth_le secondDepth
  exact aboveFirst.of_depth_le liftedAbove otherDepth liftedDepth le

/-- The nearest common ancestor of a vertex and a vertex below it is the
first vertex. -/
theorem NearestCommonAbove.eq_of_above {common first second : α}
    (nearest : NearestCommonAbove parent common first second) (above : Above parent first second)
    {depth : Nat} (firstDepth : DepthIs parent first depth) : common = first :=
  nearest.above_first.antisymm (nearest.nearest first .refl above) firstDepth

theorem NearestCommonAbove.symm {common first second : α}
    (nearest : NearestCommonAbove parent common first second) :
    NearestCommonAbove parent common second first :=
  ⟨nearest.above_second, nearest.above_first,
    fun other aboveSecond aboveFirst => nearest.nearest other aboveFirst aboveSecond⟩

end Nearest

section Update

variable [DecidableEq α] {vertex oldParent newParent : α}

/-- Moving `vertex` under an ancestor of its parent adds no ancestor to any
vertex. -/
theorem Above.of_update (hasParent : parent vertex = some oldParent)
    (newAbove : Above parent newParent oldParent) {a b : α}
    (above : Above (Function.update parent vertex (some newParent)) a b) : Above parent a b := by
  induction above with
  | refl => exact .refl
  | @up b p updated _ inductionHypothesis =>
      by_cases moved : b = vertex
      · subst moved
        rw [Function.update_self, Option.some.injEq] at updated
        subst updated
        exact .up hasParent (inductionHypothesis.trans newAbove)
      · rw [Function.update_of_ne moved] at updated
        exact .up updated inductionHypothesis

/-- Moving `vertex` under an ancestor of its parent keeps every chain finite
and makes none longer. -/
theorem DepthIs.of_update (hasParent : parent vertex = some oldParent)
    (newAbove : Above parent newParent oldParent) :
    ∀ depth {b : α}, DepthIs parent b depth →
      ∃ depth' ≤ depth, DepthIs (Function.update parent vertex (some newParent)) b depth' := by
  intro depth
  induction depth using Nat.strong_induction_on with
  | _ depth inductionHypothesis =>
      intro b hasDepth
      cases hasDepth with
      | root isRoot =>
          have notMoved : b ≠ vertex := by
            rintro rfl
            rw [hasParent] at isRoot
            cases isRoot
          exact ⟨0, le_refl _, .root (by rw [Function.update_of_ne notMoved, isRoot])⟩
      | @up _ p parentDepth updated rest =>
          by_cases moved : b = vertex
          · subst moved
            rw [hasParent, Option.some.injEq] at updated
            subst updated
            obtain ⟨newDepth, le, newHasDepth, _⟩ := newAbove.depth_le rest
            obtain ⟨depth', le', hasDepth'⟩ := inductionHypothesis newDepth (by omega) newHasDepth
            exact ⟨depth' + 1, by omega, .up (Function.update_self _ _ _) hasDepth'⟩
          · obtain ⟨depth', le', hasDepth'⟩ := inductionHypothesis parentDepth (by omega) rest
            exact ⟨depth' + 1, by omega, .up (by rw [Function.update_of_ne moved, updated]) hasDepth'⟩

/-- Moving `vertex` under a proper ancestor of its parent makes its chain
shorter. -/
theorem DepthIs.lt_of_update (hasParent : parent vertex = some oldParent)
    (newAbove : Above parent newParent oldParent) (moved : newParent ≠ oldParent)
    {depth : Nat} (hasDepth : DepthIs parent vertex depth) :
    ∃ depth' < depth, DepthIs (Function.update parent vertex (some newParent)) vertex depth' := by
  cases hasDepth with
  | root isRoot => rw [hasParent] at isRoot; cases isRoot
  | @up _ p parentDepth updated rest =>
      rw [hasParent, Option.some.injEq] at updated
      subst updated
      obtain ⟨newDepth, le, newHasDepth, same⟩ := newAbove.depth_le rest
      have shallower : newDepth < parentDepth := lt_of_le_of_ne le fun equal => moved (same equal)
      obtain ⟨depth', le', hasDepth'⟩ := DepthIs.of_update hasParent newAbove newDepth newHasDepth
      exact ⟨depth' + 1, by omega, .up (Function.update_self _ _ _) hasDepth'⟩

/-- A vertex keeps above it whatever the new parent of `vertex` was above. -/
theorem Above.update_new {b : α} (above : Above parent newParent b) :
    Above (Function.update parent vertex (some newParent)) newParent b := by
  induction above with
  | refl => exact .refl
  | @up b p hasParent _ inductionHypothesis =>
      by_cases moved : b = vertex
      · subst moved
        exact .of_parent (Function.update_self _ _ _)
      · exact .up (by rw [Function.update_of_ne moved, hasParent]) inductionHypothesis

/-- The ancestors of a vertex below which `vertex` is not do not change. -/
theorem Above.update_iff_of_not_above {a b : α} (notBelow : ¬ Above parent vertex b)
    (newValue : Option α) :
    Above (Function.update parent vertex newValue) a b ↔ Above parent a b := by
  constructor
  · intro above
    induction above with
    | refl => exact .refl
    | @up b p updated _ inductionHypothesis =>
        have notMoved : b ≠ vertex := fun same => notBelow (same ▸ .refl)
        rw [Function.update_of_ne notMoved] at updated
        exact .up updated (inductionHypothesis fun below => notBelow (below.trans (.of_parent updated)))
  · intro above
    induction above with
    | refl => exact .refl
    | @up b p hasParent _ inductionHypothesis =>
        have notMoved : b ≠ vertex := fun same => notBelow (same ▸ .refl)
        exact .up (by rw [Function.update_of_ne notMoved, hasParent])
          (inductionHypothesis fun below => notBelow (below.trans (.of_parent hasParent)))

/-- The chain of a vertex below which `vertex` is not does not change. -/
theorem DepthIs.update_of_not_above {b : α} {depth : Nat} (hasDepth : DepthIs parent b depth)
    (notBelow : ¬ Above parent vertex b) (newValue : Option α) :
    DepthIs (Function.update parent vertex newValue) b depth := by
  induction hasDepth with
  | root isRoot =>
      have notMoved : _ ≠ vertex := fun same => notBelow (same ▸ .refl)
      exact .root (by rw [Function.update_of_ne notMoved, isRoot])
  | up hasParent _ inductionHypothesis =>
      have notMoved : _ ≠ vertex := fun same => notBelow (same ▸ .refl)
      exact .up (by rw [Function.update_of_ne notMoved, hasParent])
        (inductionHypothesis fun below => notBelow (below.trans (.of_parent hasParent)))

/-- Giving a root a parent outside its own subtree keeps every chain
finite. -/
theorem DepthIs.of_attach (isRoot : parent vertex = none) {newParent : α}
    (notBelow : ¬ Above parent vertex newParent) {newDepth : Nat}
    (newHasDepth : DepthIs parent newParent newDepth) :
    ∀ {b : α} {depth : Nat}, DepthIs parent b depth →
      ∃ depth', DepthIs (Function.update parent vertex (some newParent)) b depth' := by
  have attached : DepthIs (Function.update parent vertex (some newParent)) vertex (newDepth + 1) :=
    .up (Function.update_self _ _ _) (newHasDepth.update_of_not_above notBelow _)
  intro b depth hasDepth
  induction hasDepth with
  | @root b bRoot =>
      by_cases moved : b = vertex
      · rw [moved]
        exact ⟨_, attached⟩
      · exact ⟨0, .root (by rw [Function.update_of_ne moved, bRoot])⟩
  | @up b p _ hasParent _ inductionHypothesis =>
      have notMoved : b ≠ vertex := by
        rintro rfl
        rw [isRoot] at hasParent
        cases hasParent
      obtain ⟨depth', hasDepth'⟩ := inductionHypothesis
      exact ⟨depth' + 1, .up (by rw [Function.update_of_ne notMoved, hasParent]) hasDepth'⟩

end Update

end ArtRuntime.Graph
