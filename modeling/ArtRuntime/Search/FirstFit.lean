import Mathlib

namespace ArtRuntime.Search

/-!
# First fit of a window of free positions

An allocator that needs `count` consecutive free positions tries the windows
in order of their first position.  A window that holds a blocked position
fails, and so does every later window that still holds it: a scan may resume
just past the blocked position.  `firstWindow` is the specification, the
first start of a window of free positions inside a range; the lemmas below
are the three steps of such a scan, stated against it.

Nothing in this module names the runtime.
-/

/-- `free` holds at each of the `count` positions from `start`. -/
def windowFree (free : Nat → Bool) (start count : Nat) : Bool :=
  (List.range' start count).all free

/-- The first position of `[start, start + count)` where `free` fails. -/
def firstBlocked (free : Nat → Bool) (start count : Nat) : Option Nat :=
  (List.range' start count).find? fun position => !free position

/-- The first start, from `lo` on, of a window of `count` free positions
that ends by `hi`. -/
def firstWindow (free : Nat → Bool) (count lo hi : Nat) : Option Nat :=
  (List.range' lo (hi + 1 - (lo + count))).find? fun start => windowFree free start count

variable {free : Nat → Bool}

theorem windowFree_iff {start count : Nat} :
    windowFree free start count = true ↔
      ∀ position, start ≤ position → position < start + count → free position = true := by
  simp only [windowFree, List.all_eq_true, List.mem_range'_1, and_imp]

theorem firstBlocked_eq_none_iff {start count : Nat} :
    firstBlocked free start count = none ↔ windowFree free start count = true := by
  rw [firstBlocked, List.find?_range'_eq_none, windowFree_iff]
  simp only [Bool.not_not]

/-- A blocked position is in the window, and the positions before it are
free. -/
theorem firstBlocked_eq_some {start count blocked : Nat}
    (found : firstBlocked free start count = some blocked) :
    start ≤ blocked ∧ blocked < start + count ∧ free blocked = false ∧
      ∀ position, start ≤ position → position < blocked → free position = true := by
  rw [firstBlocked, List.find?_range'_eq_some, List.mem_range'_1] at found
  obtain ⟨isBlocked, ⟨low, high⟩, before⟩ := found
  refine ⟨low, high, by simpa using isBlocked, fun position atLeast below => ?_⟩
  simpa using before position atLeast below

/-- The specification: the first window is free, fits in the range, and no
window starting earlier in the range is free. -/
theorem firstWindow_eq_some_iff {count lo hi start : Nat} :
    firstWindow free count lo hi = some start ↔
      lo ≤ start ∧ start + count ≤ hi ∧ windowFree free start count = true ∧
        ∀ earlier, lo ≤ earlier → earlier < start → windowFree free earlier count = false := by
  rw [firstWindow, List.find?_range'_eq_some, List.mem_range'_1]
  constructor
  · rintro ⟨isFree, ⟨low, high⟩, before⟩
    exact ⟨low, by omega, isFree, fun earlier atLeast below => by
      simpa using before earlier atLeast below⟩
  · rintro ⟨low, fits, isFree, before⟩
    exact ⟨isFree, ⟨low, by omega⟩, fun earlier atLeast below => by
      simpa using before earlier atLeast below⟩

theorem firstWindow_eq_none_iff {count lo hi : Nat} :
    firstWindow free count lo hi = none ↔
      ∀ start, lo ≤ start → start + count ≤ hi → windowFree free start count = false := by
  rw [firstWindow, List.find?_range'_eq_none]
  constructor
  · intro none start low fits
    simpa using none start low (by omega)
  · intro none start low high
    simpa using none start low (by omega)

/-- A scan that finds its window free at `left` has found the first
window. -/
theorem firstWindow_of_windowFree {count left hi : Nat} (fits : left + count ≤ hi)
    (isFree : windowFree free left count = true) :
    firstWindow free count left hi = some left :=
  firstWindow_eq_some_iff.mpr ⟨le_rfl, fits, isFree, fun _ atLeast below => absurd below (by omega)⟩

/-- A scan that finds `blocked` in its window may resume past it: every
window starting from `left` up to `blocked` holds it. -/
theorem firstWindow_skip {count left hi blocked : Nat}
    (found : firstBlocked free left count = some blocked) :
    firstWindow free count left hi = firstWindow free count (blocked + 1) hi := by
  obtain ⟨low, high, isBlocked, -⟩ := firstBlocked_eq_some found
  have holdsBlocked : ∀ start, left ≤ start → start ≤ blocked →
      windowFree free start count = false := by
    intro start atLeast atMost
    rw [← Bool.not_eq_true, windowFree_iff]
    intro allFree
    have := allFree blocked atMost (by omega)
    rw [isBlocked] at this
    exact Bool.false_ne_true this
  cases found' : firstWindow free count (blocked + 1) hi with
  | none =>
    rw [firstWindow_eq_none_iff] at found' ⊢
    intro start atLeast fits
    rcases Nat.lt_or_ge blocked start with after | before
    · exact found' start after fits
    · exact holdsBlocked start atLeast before
  | some start =>
    obtain ⟨atLeast, fits, isFree, earlierBlocked⟩ := firstWindow_eq_some_iff.mp found'
    refine firstWindow_eq_some_iff.mpr ⟨by omega, fits, isFree, fun earlier low' below => ?_⟩
    rcases Nat.lt_or_ge blocked earlier with after | atMost
    · exact earlierBlocked earlier after below
    · exact holdsBlocked earlier low' atMost

/-- A range too short for a window has none. -/
theorem firstWindow_of_lt {count lo hi : Nat} (short : hi < lo + count) :
    firstWindow free count lo hi = none :=
  firstWindow_eq_none_iff.mpr fun _ low fits => absurd fits (by omega)

/-- Two searches, one after the other, are a search of the starts of the
first range followed by those of the second. -/
theorem firstWindow_or {count lo lo' hi hi' : Nat} :
    (firstWindow free count lo hi).or (firstWindow free count lo' hi') =
      (List.range' lo (hi + 1 - (lo + count)) ++ List.range' lo' (hi' + 1 - (lo' + count))).find?
        fun start => windowFree free start count := by
  rw [List.find?_append]
  rfl

end ArtRuntime.Search
