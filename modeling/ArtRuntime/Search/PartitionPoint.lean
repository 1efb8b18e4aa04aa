import Mathlib.Order.Basic

namespace ArtRuntime.Search

/-!
# `std::partition_point`

The binary search of the C++ library over a range of `len` elements from
`first` (libc++'s loop): the element `half = len / 2` past `first` splits the
range, a true predicate there moves `first` past it, and a false one keeps
the lower half.  Iterators are indices.

On a range partitioned by the predicate (true on a prefix, false after it)
the result is the end of that prefix (`partitionPoint_spec`).  Nothing in this
module names the runtime.
-/

/-- `std::partition_point(first, first + len, pred)`. -/
def partitionPoint (pred : Nat → Bool) (first len : Nat) : Nat :=
  if len = 0 then first
  else
    let half := len / 2
    if pred (first + half) then partitionPoint pred (first + half + 1) (len - (half + 1))
    else partitionPoint pred first half
termination_by len
decreasing_by all_goals omega

/-- The predicate holds on a prefix of `[first, first + len)` and fails on the
rest. -/
def Partitioned (pred : Nat → Bool) (first len : Nat) : Prop :=
  ∀ i j, first ≤ i → i ≤ j → j < first + len → pred j = true → pred i = true

/-- `point` ends the prefix of `[first, first + len)` where the predicate
holds. -/
structure IsPartitionPoint (pred : Nat → Bool) (first len point : Nat) : Prop where
  first_le : first ≤ point
  le_last : point ≤ first + len
  holds_below : ∀ i, first ≤ i → i < point → pred i = true
  fails_at : point < first + len → pred point = false

variable {pred : Nat → Bool}

theorem Partitioned.mono {first len first' len' : Nat} (partitioned : Partitioned pred first len)
    (lower : first ≤ first') (upper : first' + len' ≤ first + len) :
    Partitioned pred first' len' :=
  fun i j below le inside holds => partitioned i j (by omega) le (by omega) holds

/-- The loop returns the end of the prefix where the predicate holds.  The
induction follows the loop: a true predicate at the middle makes the whole
lower half true, by the partition, and a false one leaves the end of the prefix
in the lower half. -/
theorem partitionPoint_spec {first len : Nat} (partitioned : Partitioned pred first len) :
    IsPartitionPoint pred first len (partitionPoint pred first len) := by
  revert partitioned
  fun_induction partitionPoint pred first len with
  | case1 first =>
    intro _
    exact ⟨Nat.le_refl _, by omega, fun i below above => absurd above (by omega), fun inside => by omega⟩
  | case2 first len nonempty half holds inductionHypothesis =>
    intro partitioned
    have upper := inductionHypothesis (partitioned.mono (by omega) (by omega))
    refine ⟨by have := upper.first_le; omega, by have := upper.le_last; omega, ?_,
      fun inside => upper.fails_at (by omega)⟩
    intro i below above
    by_cases lowerHalf : i ≤ first + half
    · exact partitioned i (first + half) below lowerHalf (by omega) holds
    · exact upper.holds_below i (by omega) above
  | case3 first len nonempty half fails inductionHypothesis =>
    intro partitioned
    have lower := inductionHypothesis (partitioned.mono (Nat.le_refl _) (by omega))
    refine ⟨lower.first_le, by have := lower.le_last; omega, lower.holds_below, ?_⟩
    intro inside
    by_cases beforeMiddle : partitionPoint pred first half < first + half
    · exact lower.fails_at beforeMiddle
    · have atMiddle : partitionPoint pred first half = first + half := by
        have := lower.le_last
        omega
      rw [atMiddle]
      simpa using fails

/-- Past the partition point, the predicate fails on the whole range. -/
theorem IsPartitionPoint.fails_after {first len point : Nat} (partitioned : Partitioned pred first len)
    (isPoint : IsPartitionPoint pred first len point) {i : Nat} (after : point ≤ i)
    (inside : i < first + len) : pred i = false := by
  cases holds : pred i with
  | false => rfl
  | true =>
    have atPoint := partitioned point i isPoint.first_le after inside holds
    rw [isPoint.fails_at (by omega)] at atPoint
    exact absurd atPoint Bool.false_ne_true

end ArtRuntime.Search
