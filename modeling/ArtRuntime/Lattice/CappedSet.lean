import Mathlib.Data.Finset.Card
import Mathlib.Order.BoundedOrder.Basic

namespace ArtRuntime.Lattice

/-!
# Capped sets

A finite set of at most `cap` elements, the value `many` for every larger
set, and `unknown` above both.  Capped sets form a bounded join semilattice:
the join of two small sets is their union while it stays within the cap and
`many` once the union grows past it.  `ofFinset` reads a set into the
lattice and turns unions into joins.
-/

/-- A finite set of at most `cap` elements, `many` for a larger one, and
`unknown` above both. -/
inductive CappedSet (α : Type) (cap : Nat) where
  | elems (set : Finset α) (small : set.card ≤ cap)
  | many
  | unknown
deriving DecidableEq

namespace CappedSet

variable {α : Type} {cap : Nat}

/-- A set as a capped set: itself within the cap, `many` past it. -/
def ofFinset (set : Finset α) : CappedSet α cap :=
  if small : set.card ≤ cap then elems set small else many

/-- Inclusion of small sets, then `many`, then `unknown`. -/
def Le : CappedSet α cap → CappedSet α cap → Prop
  | elems first _, elems second _ => first ⊆ second
  | elems _ _, many => True
  | elems _ _, unknown => True
  | many, elems _ _ => False
  | many, many => True
  | many, unknown => True
  | unknown, elems _ _ => False
  | unknown, many => False
  | unknown, unknown => True

theorem Le.trans {first second third : CappedSet α cap}
    (firstLe : Le first second) (secondLe : Le second third) : Le first third := by
  cases first <;> cases second <;> cases third <;> simp only [Le] at firstLe secondLe ⊢
  exact Finset.Subset.trans firstLe secondLe

instance : PartialOrder (CappedSet α cap) where
  le := Le
  le_refl value := by
    cases value with
    | elems set _ => exact Finset.Subset.refl set
    | many => trivial
    | unknown => trivial
  le_trans _ _ _ := Le.trans
  le_antisymm first second firstLe secondLe := by
    cases first <;> cases second <;> simp only [Le] at firstLe secondLe ⊢
    cases Finset.Subset.antisymm firstLe secondLe
    rfl

@[simp]
theorem elems_le_elems {first second : Finset α} {firstSmall : first.card ≤ cap}
    {secondSmall : second.card ≤ cap} :
    elems first firstSmall ≤ elems second secondSmall ↔ first ⊆ second :=
  Iff.rfl

@[simp]
theorem elems_le_many {set : Finset α} {small : set.card ≤ cap} :
    elems set small ≤ many :=
  trivial

@[simp]
theorem many_le_many : (many : CappedSet α cap) ≤ many :=
  trivial

instance : OrderBot (CappedSet α cap) where
  bot := elems ∅ (by simp)
  bot_le value := by
    cases value with
    | elems set _ => exact Finset.empty_subset set
    | many => trivial
    | unknown => trivial

instance : OrderTop (CappedSet α cap) where
  top := unknown
  le_top value := by cases value <;> trivial

theorem ofFinset_le {set : Finset α} {bound : CappedSet α cap}
    (subset : ∀ small : set.card ≤ cap, elems set small ≤ bound)
    (large : ¬set.card ≤ cap → many ≤ bound) :
    (ofFinset set : CappedSet α cap) ≤ bound := by
  unfold ofFinset
  split
  · exact subset ‹_›
  · exact large ‹_›

theorem le_ofFinset {value : CappedSet α cap} {set : Finset α}
    (subset : ∀ small : set.card ≤ cap, value ≤ elems set small)
    (large : ¬set.card ≤ cap → value ≤ many) :
    value ≤ ofFinset set := by
  unfold ofFinset
  split
  · exact subset ‹_›
  · exact large ‹_›

theorem top_eq_unknown : (⊤ : CappedSet α cap) = unknown :=
  rfl

@[simp]
theorem ofFinset_empty : (ofFinset ∅ : CappedSet α cap) = ⊥ := by
  rw [ofFinset, dif_pos (by simp)]
  rfl

theorem ofFinset_of_card_le {set : Finset α} (small : set.card ≤ cap) :
    (ofFinset set : CappedSet α cap) = elems set small :=
  dif_pos small

theorem ofFinset_of_cap_lt {set : Finset α} (large : cap < set.card) :
    (ofFinset set : CappedSet α cap) = many :=
  dif_neg (Nat.not_le_of_lt large)

variable [DecidableEq α]

/-- The join: the union of two small sets, read back through the cap. -/
def join : CappedSet α cap → CappedSet α cap → CappedSet α cap
  | unknown, _ => unknown
  | _, unknown => unknown
  | many, _ => many
  | _, many => many
  | elems first _, elems second _ => ofFinset (first ∪ second)

instance : SemilatticeSup (CappedSet α cap) where
  sup := join
  le_sup_left first second := by
    cases first <;> cases second <;> try exact le_top
    all_goals first
      | exact le_ofFinset (fun _ => elems_le_elems.mpr Finset.subset_union_left)
          (fun _ => elems_le_many)
      | exact elems_le_many
      | exact many_le_many
  le_sup_right first second := by
    cases first <;> cases second <;> try exact le_top
    all_goals first
      | exact le_ofFinset (fun _ => elems_le_elems.mpr Finset.subset_union_right)
          (fun _ => elems_le_many)
      | exact elems_le_many
      | exact many_le_many
  sup_le first second bound firstLe secondLe := by
    change Le first bound at firstLe
    change Le second bound at secondLe
    cases first <;> cases second <;> cases bound <;> simp only [Le] at firstLe secondLe
    all_goals first
      | exact le_top
      | exact many_le_many
      | exact ofFinset_le (fun _ => elems_le_many) (fun _ => many_le_many)
      | skip
    rename_i boundSmall
    refine ofFinset_le (fun _ => elems_le_elems.mpr (Finset.union_subset firstLe secondLe))
      (fun large => ?_)
    exact absurd ((Finset.card_le_card (Finset.union_subset firstLe secondLe)).trans boundSmall)
      large
@[simp]
theorem many_sup_ofFinset (set : Finset α) : many ⊔ (ofFinset set : CappedSet α cap) = many := by
  unfold ofFinset
  split <;> rfl

@[simp]
theorem ofFinset_sup_many (set : Finset α) : (ofFinset set : CappedSet α cap) ⊔ many = many := by
  rw [sup_comm, many_sup_ofFinset]

/-- `ofFinset` turns unions into joins. -/
theorem ofFinset_union (first second : Finset α) :
    (ofFinset (first ∪ second) : CappedSet α cap) = ofFinset first ⊔ ofFinset second := by
  by_cases firstSmall : first.card ≤ cap
  · by_cases secondSmall : second.card ≤ cap
    · rw [ofFinset_of_card_le firstSmall, ofFinset_of_card_le secondSmall]
      rfl
    · rw [ofFinset_of_cap_lt (Nat.lt_of_not_le secondSmall), ofFinset_sup_many,
        ofFinset_of_cap_lt]
      exact (Nat.lt_of_not_le secondSmall).trans_le
        (Finset.card_le_card Finset.subset_union_right)
  · rw [ofFinset_of_cap_lt (Nat.lt_of_not_le firstSmall), many_sup_ofFinset,
      ofFinset_of_cap_lt]
    exact (Nat.lt_of_not_le firstSmall).trans_le (Finset.card_le_card Finset.subset_union_left)

end CappedSet

end ArtRuntime.Lattice
