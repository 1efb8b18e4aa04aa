import ArtRuntime.Graph.ParentTree
import Mathlib.Data.List.Chain

namespace ArtRuntime.Graph

/-!
# Dominance

A graph is given by the successor list of each vertex, and has a root.
`Dominates succ root a b` says that every path from the root to `b` passes
through `a`; equivalently, `b` cannot be reached from the root along edges
that avoid `a`.  A parent function is the dominator tree when the vertices
above each vertex are exactly its dominators: `above_iff_dominates` gives
this from two properties a dominator computation can establish, that each
parent is above every predecessor and that each parent is dominated by every
strict dominator.
-/

variable {α : Type} (succ : α → List α)

/-- An edge from `u` to `v`. -/
def Edge (u v : α) : Prop :=
  v ∈ succ u

/-- An edge into a vertex other than `avoided`. -/
def EdgeAvoiding (avoided u v : α) : Prop :=
  v ∈ succ u ∧ v ≠ avoided

/-- Every path from `root` to `b` passes through `a`. -/
def Dominates (root a b : α) : Prop :=
  ∀ path : List α, (root :: path).IsChain (Edge succ) →
    (root :: path).getLast (List.cons_ne_nil root path) = b → a ∈ root :: path

/-- `dominator` dominates `b`, and every other dominator of `b` other than
`b` dominates `dominator`. -/
structure IsImmediateDominator (root dominator b : α) : Prop where
  ne : dominator ≠ b
  dominates : Dominates succ root dominator b
  immediate : ∀ other, other ≠ b → Dominates succ root other b →
    Dominates succ root other dominator

variable {succ} {root : α}

section Paths

/-- Dominance is the absence of a path from the root that avoids the
dominator. -/
theorem dominates_iff {a b : α} :
    Dominates succ root a b ↔
      root = a ∨ ¬ Relation.ReflTransGen (EdgeAvoiding succ a) root b := by
  constructor
  · intro dominates
    by_cases isRoot : root = a
    · exact .inl isRoot
    refine .inr fun avoiding => ?_
    obtain ⟨path, chain, last⟩ := List.exists_isChain_cons_of_relationReflTransGen avoiding
    -- the root is not `a`, and every later vertex of the path is entered by an edge avoiding `a`
    have avoids : ∀ vertex ∈ root :: path, vertex ≠ a :=
      List.IsChain.induction (· ≠ a) _ chain (fun _ _ edge _ => edge.2) fun _ => isRoot
    exact avoids a (dominates path (chain.imp fun _ _ edge => edge.1) last) rfl
  · rintro (isRoot | unreachable) path chain last
    · exact isRoot ▸ List.mem_cons_self
    · by_contra absent
      refine unreachable (List.relationReflTransGen_of_exists_isChain_cons path ?_ last)
      exact chain.imp_of_mem_imp fun _ vertex _ member edge =>
        ⟨edge, fun same => absent (same ▸ member)⟩

theorem Dominates.refl (b : α) : Dominates succ root b b :=
  fun _ _ last => last ▸ List.getLast_mem _

theorem dominates_root (b : α) : Dominates succ root root b :=
  dominates_iff.mpr (.inl rfl)

/-- Only the root dominates the root. -/
theorem Dominates.eq_of_root {a : α} (dominates : Dominates succ root a root) : a = root := by
  have := dominates [] (List.isChain_singleton root) rfl
  rwa [List.mem_singleton] at this

/-- A strict dominator of `v` dominates each predecessor of `v`. -/
theorem Dominates.of_edge {a u v : α} (dominates : Dominates succ root a v) (strict : a ≠ v)
    (edge : v ∈ succ u) : Dominates succ root a u := by
  rcases dominates_iff.mp dominates with isRoot | unreachable
  · exact dominates_iff.mpr (.inl isRoot)
  · exact dominates_iff.mpr (.inr fun avoiding => unreachable (.tail avoiding ⟨edge, strict.symm⟩))

end Paths

section Tree

variable {parent : α → Option α}

/-- Each parent is above every predecessor reachable from the root: then
every vertex above `b` dominates it. -/
theorem Above.dominates (rootParent : parent root = none)
    (stable : ∀ u v, Relation.ReflTransGen (Edge succ) root u → v ∈ succ u →
      ∃ p, parent v = some p ∧ Above parent p u)
    {a b : α} (above : Above parent a b) : Dominates succ root a b := by
  refine dominates_iff.mpr (or_iff_not_imp_left.mpr fun notRoot avoiding => ?_)
  -- no vertex reached while avoiding `a` has `a` above it
  have notAbove : ∀ w, Relation.ReflTransGen (EdgeAvoiding succ a) root w → ¬ Above parent a w := by
    intro w reaches
    induction reaches with
    | refl => exact fun aboveRoot => notRoot (aboveRoot.eq_of_root rootParent).symm
    | tail avoiding edge inductionHypothesis =>
        intro aboveTarget
        obtain ⟨p, hasParent, aboveParent⟩ := aboveTarget.parent_of_ne edge.2.symm
        obtain ⟨p', hasParent', stablePred⟩ :=
          stable _ _ (Relation.ReflTransGen.mono (fun _ _ step => step.1) _ _ avoiding) edge.1
        rw [hasParent, Option.some.injEq] at hasParent'
        subst hasParent'
        exact inductionHypothesis (aboveParent.trans stablePred)
  exact notAbove b avoiding above

/-- Each parent is dominated by every strict dominator: then every dominator
of a vertex below the root is above it. -/
theorem Dominates.above
    (rootParent : parent root = none)
    (parentDominated : ∀ b p, parent b = some p → ∀ x, x ≠ b →
      Dominates succ root x b → Dominates succ root x p)
    {b : α} {depth : Nat} (hasDepth : DepthIs parent b depth) (rootAbove : Above parent root b)
    {a : α} (dominates : Dominates succ root a b) : Above parent a b := by
  induction hasDepth with
  | root isRoot =>
      rw [← rootAbove.eq_of_root isRoot] at dominates ⊢
      rw [dominates.eq_of_root]
      exact .refl
  | @up b p _ hasParent _ inductionHypothesis =>
      have notRoot : root ≠ b := by
        rintro rfl
        rw [rootParent] at hasParent
        cases hasParent
      obtain ⟨p', hasParent', rootAboveParent⟩ := rootAbove.parent_of_ne notRoot
      rw [hasParent, Option.some.injEq] at hasParent'
      subst hasParent'
      by_cases same : a = b
      · exact same ▸ .refl
      · exact .up hasParent
          (inductionHypothesis rootAboveParent (parentDominated b _ hasParent a same dominates))

/-- With each parent dominated by every strict dominator, a dominator of `w`
dominates every vertex between itself and `w`. -/
theorem Dominates.up
    (parentDominated : ∀ b p, parent b = some p → ∀ x, x ≠ b →
      Dominates succ root x b → Dominates succ root x p)
    (depths : ∀ b, ∃ depth, DepthIs parent b depth)
    {x w between : α} (dominates : Dominates succ root x w) (below : Above parent between w)
    (above : Above parent x between) : Dominates succ root x between := by
  induction below with
  | refl => exact dominates
  | @up b p hasParent _ inductionHypothesis =>
      by_cases same : x = b
      · subst same
        obtain ⟨_, betweenDepth⟩ := depths between
        rw [above.antisymm (.up hasParent ‹_›) betweenDepth]
        exact .refl _
      · exact inductionHypothesis (parentDominated b p hasParent x same dominates)

/-- With each parent dominated by every strict dominator, a common strict
dominator of two vertices below the root dominates their nearest common
ancestor. -/
theorem Dominates.nearest
    (rootParent : parent root = none)
    (parentDominated : ∀ b p, parent b = some p → ∀ x, x ≠ b →
      Dominates succ root x b → Dominates succ root x p)
    (depths : ∀ b, ∃ depth, DepthIs parent b depth)
    {x first second common : α}
    (firstRoot : Above parent root first) (secondRoot : Above parent root second)
    (nearest : NearestCommonAbove parent common first second)
    (dominatesFirst : Dominates succ root x first) (dominatesSecond : Dominates succ root x second) :
    Dominates succ root x common := by
  obtain ⟨_, firstDepth⟩ := depths first
  obtain ⟨_, secondDepth⟩ := depths second
  have aboveFirst := dominatesFirst.above rootParent parentDominated firstDepth firstRoot
  have aboveSecond := dominatesSecond.above rootParent parentDominated secondDepth secondRoot
  exact dominatesSecond.up parentDominated depths nearest.above_second
    (nearest.nearest x aboveFirst aboveSecond)

/-- The parent function is the dominator tree: the vertices above each vertex
below the root are its dominators. -/
theorem above_iff_dominates
    (rootParent : parent root = none)
    (stable : ∀ u v, Relation.ReflTransGen (Edge succ) root u → v ∈ succ u →
      ∃ p, parent v = some p ∧ Above parent p u)
    (parentDominated : ∀ b p, parent b = some p → ∀ x, x ≠ b →
      Dominates succ root x b → Dominates succ root x p)
    {b : α} {depth : Nat} (hasDepth : DepthIs parent b depth) (rootAbove : Above parent root b)
    (a : α) :
    Above parent a b ↔ Dominates succ root a b :=
  ⟨Above.dominates rootParent stable, Dominates.above rootParent parentDominated hasDepth rootAbove⟩

/-- In the dominator tree the parent of each vertex is its immediate
dominator. -/
theorem IsImmediateDominator.of_parent
    (rootParent : parent root = none)
    (stable : ∀ u v, Relation.ReflTransGen (Edge succ) root u → v ∈ succ u →
      ∃ p, parent v = some p ∧ Above parent p u)
    (parentDominated : ∀ b p, parent b = some p → ∀ x, x ≠ b →
      Dominates succ root x b → Dominates succ root x p)
    {b p : α} (hasParent : parent b = some p) {depth : Nat} (hasDepth : DepthIs parent b depth)
    (rootAbove : Above parent root b) :
    IsImmediateDominator succ root p b := by
  have parentDepth : ∃ parentDepth, DepthIs parent p parentDepth := by
    cases hasDepth with
    | root isRoot => rw [isRoot] at hasParent; cases hasParent
    | up hasParent' parentDepth =>
        rw [hasParent, Option.some.injEq] at hasParent'
        exact ⟨_, hasParent' ▸ parentDepth⟩
  obtain ⟨_, parentDepth⟩ := parentDepth
  refine ⟨fun same => ?_, (Above.of_parent hasParent).dominates rootParent stable,
    fun other differs dominates => ?_⟩
  · subst same
    have once := DepthIs.unique hasDepth parentDepth
    have twice := DepthIs.unique hasDepth (.up hasParent parentDepth)
    omega
  · have above := dominates.above rootParent parentDominated hasDepth rootAbove
    obtain ⟨p', hasParent', aboveParent⟩ := above.parent_of_ne differs
    rw [hasParent, Option.some.injEq] at hasParent'
    subst hasParent'
    exact aboveParent.dominates rootParent stable

end Tree

end ArtRuntime.Graph
