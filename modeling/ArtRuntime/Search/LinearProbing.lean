import Mathlib

namespace ArtRuntime.Search

/-!
# Linear probing on a ring of slots

An open-addressing table with linear probing keeps every element on its probe
path: the slots from the element's home slot forward, wrapping past the last
slot to the first, up to the slot that holds it.  `arcLength` measures such a
path without `%`: on a ring of `size` slots a walk crosses the end at most
once, so each fact about arcs below is linear arithmetic once the two cases of
`arcLength` are split.

`ProbePathsOccupied` is the table invariant that makes a probe exact when it
stops at the first empty slot.  `PathsOccupiedExcept` is the weaker invariant
that holds in the middle of a backward-shift deletion, which empties one slot
and moves later elements of its cluster back into the hole; the last section
proves its four steps: start, skip an element, move an element, finish.

Nothing in this module names the runtime.
-/

/-- The slot after `index` on a ring of `size` slots. -/
def ringNext (size index : Nat) : Nat :=
  if index + 1 ≥ size then 0 else index + 1

/-- The number of steps forward from `start` to `position` on a ring of `size`
slots. -/
def arcLength (size start position : Nat) : Nat :=
  if start ≤ position then position - start else position + size - start

/-- `position` lies on the arc from `start` forward to `stop`, both ends
included. -/
def OnArc (size start stop position : Nat) : Prop :=
  arcLength size start position ≤ arcLength size start stop

instance (size start stop position : Nat) : Decidable (OnArc size start stop position) :=
  Nat.decLe _ _

/-- `position` lies on the arc from just after `start` forward to `stop`. -/
def OnArcAfter (size start stop position : Nat) : Prop :=
  0 < arcLength size start position ∧ arcLength size start position ≤ arcLength size start stop

instance (size start stop position : Nat) : Decidable (OnArcAfter size start stop position) :=
  instDecidableAnd

/-- Every position strictly before `slot` on the walk from `start` satisfies
`passes`: the walk reaches `slot` without stopping. -/
def PassesBefore (size start slot : Nat) (passes : Nat → Prop) : Prop :=
  ∀ position < size, arcLength size start position < arcLength size start slot → passes position

section Ring

variable {size start stop middle position hole : Nat}

@[simp]
theorem arcLength_self (size start : Nat) : arcLength size start start = 0 := by
  simp [arcLength]

theorem ringNext_lt (positionLt : position < size) : ringNext size position < size := by
  unfold ringNext
  split <;> omega

theorem arcLength_lt (startLt : start < size) (positionLt : position < size) :
    arcLength size start position < size := by
  unfold arcLength
  split <;> omega

theorem arcLength_eq_zero_iff (startLt : start < size) :
    arcLength size start position = 0 ↔ position = start := by
  unfold arcLength
  split <;> omega

/-- From one start, distinct positions are at distinct distances. -/
theorem eq_of_arcLength_eq {other : Nat} (startLt : start < size) (positionLt : position < size)
    (otherLt : other < size) (same : arcLength size start position = arcLength size start other) :
    position = other := by
  unfold arcLength at same
  split_ifs at same <;> omega

/-- A step forward lengthens an arc by one, unless it closes the ring. -/
theorem arcLength_ringNext (startLt : start < size) (positionLt : position < size)
    (notClosing : ringNext size position ≠ start) :
    arcLength size start (ringNext size position) = arcLength size start position + 1 := by
  simp only [ringNext, arcLength] at notClosing ⊢
  split_ifs at notClosing ⊢ <;> omega

/-- The arc from the slot after `start` is one step shorter. -/
theorem arcLength_from_ringNext (startLt : start < size) (positionLt : position < size)
    (ne : position ≠ start) :
    arcLength size (ringNext size start) position + 1 = arcLength size start position := by
  unfold ringNext
  unfold arcLength
  split_ifs <;> omega

/-- A step closes the ring only from the last slot before `start`. -/
theorem ringNext_ne_of_short (startLt : start < size) (positionLt : position < size)
    (short : arcLength size start position + 1 < size) : ringNext size position ≠ start := by
  unfold ringNext
  unfold arcLength at short
  split_ifs at short ⊢ <;> omega

/-- A position on an arc splits it in two. -/
theorem arcLength_add (startLt : start < size) (stopLt : stop < size)
    (positionLt : position < size) (onArc : OnArc size start stop position) :
    arcLength size start stop = arcLength size start position + arcLength size position stop := by
  unfold OnArc arcLength at onArc
  unfold arcLength
  split_ifs at onArc ⊢ <;> omega

/-- A position on the tail of an arc lies on the arc. -/
theorem OnArc.trans (startLt : start < size) (stopLt : stop < size) (middleLt : middle < size)
    (positionLt : position < size) (first : OnArc size start stop middle)
    (second : OnArc size middle stop position) : OnArc size start stop position := by
  unfold OnArc arcLength at first second
  unfold OnArc arcLength
  split_ifs at first second ⊢ <;> omega

/-- An arc that does not start after `hole` (up to `stop`) passes `hole` on
its way to `stop`. -/
theorem onArc_of_not_onArcAfter (holeLt : hole < size) (startLt : start < size)
    (outside : ¬ OnArcAfter size hole stop start) :
    OnArc size start stop hole := by
  unfold OnArcAfter arcLength at outside
  unfold OnArc arcLength
  split_ifs at outside ⊢ <;> omega

/-- An arc that starts after `hole` reaches `stop` without passing `hole`. -/
theorem not_onArc_of_onArcAfter (holeLt : hole < size) (stopLt : stop < size)
    (startLt : start < size) (inside : OnArcAfter size hole stop start) :
    ¬ OnArc size start stop hole := by
  unfold OnArcAfter arcLength at inside
  unfold OnArc arcLength
  split_ifs at inside ⊢ <;> omega

/-- The arc after `hole` grows by the next slot, unless that slot is `hole`. -/
theorem onArcAfter_ringNext_iff (holeLt : hole < size) (stopLt : stop < size)
    (positionLt : position < size) (notClosing : ringNext size stop ≠ hole) :
    OnArcAfter size hole (ringNext size stop) position ↔
      OnArcAfter size hole stop position ∨ position = ringNext size stop := by
  have longer := arcLength_ringNext holeLt stopLt notClosing
  have nextLt := ringNext_lt stopLt
  unfold OnArcAfter
  rw [longer]
  constructor
  · intro ⟨after, within⟩
    by_cases last : arcLength size hole position = arcLength size hole stop + 1
    · rw [← longer] at last
      exact .inr (eq_of_arcLength_eq holeLt positionLt nextLt last)
    · exact .inl ⟨after, by omega⟩
  · rintro (⟨after, within⟩ | rfl)
    · exact ⟨after, by omega⟩
    · omega

/-- A position past the arc after `hole` is past its next slot too, or is
that slot. -/
theorem onArc_ringNext_of_not_onArcAfter (holeLt : hole < size) (stopLt : stop < size)
    (notClosing : ringNext size stop ≠ hole)
    (ne : position ≠ hole) (outside : ¬ OnArcAfter size hole stop position) :
    OnArc size hole position (ringNext size stop) := by
  have longer := arcLength_ringNext holeLt stopLt notClosing
  have positive : 0 < arcLength size hole position := by
    rw [Nat.pos_iff_ne_zero, Ne, arcLength_eq_zero_iff holeLt]
    exact ne
  unfold OnArcAfter at outside
  unfold OnArc
  omega

end Ring

section FirstOnArc

variable {size start slot : Nat} {passes : Nat → Prop}

theorem PassesBefore.self : PassesBefore size start start passes := by
  intro position _ shorter
  rw [arcLength_self] at shorter
  exact absurd shorter (Nat.not_lt_zero _)

/-- A walk that passes `start` reaches `slot` when the walk from the next slot
does. -/
theorem PassesBefore.of_ringNext (startLt : start < size) (slotLt : slot < size)
    (passesStart : passes start) (ne : slot ≠ start)
    (rest : PassesBefore size (ringNext size start) slot passes) :
    PassesBefore size start slot passes := by
  intro position positionLt shorter
  by_cases atStart : position = start
  · rw [atStart]
    exact passesStart
  · apply rest position positionLt
    have fromPosition := arcLength_from_ringNext startLt positionLt atStart
    have fromSlot := arcLength_from_ringNext startLt slotLt ne
    omega

/-- Once the walk has passed `start`, it reaches `slot` from the next slot. -/
theorem PassesBefore.ringNext (startLt : start < size) (slotLt : slot < size)
    (ne : slot ≠ start) (before : PassesBefore size start slot passes) :
    PassesBefore size (ringNext size start) slot passes := by
  intro position positionLt shorter
  apply before position positionLt
  by_cases atStart : position = start
  · rw [atStart, arcLength_self, Nat.pos_iff_ne_zero, Ne, arcLength_eq_zero_iff startLt]
    exact ne
  · have fromPosition := arcLength_from_ringNext startLt positionLt atStart
    have fromSlot := arcLength_from_ringNext startLt slotLt ne
    omega

theorem PassesBefore.mono {other : Nat → Prop} (implies : ∀ position, passes position → other position)
    (before : PassesBefore size start slot passes) : PassesBefore size start slot other :=
  fun position positionLt shorter => implies position (before position positionLt shorter)

end FirstOnArc

section Table

variable {α : Type} (home : α → Nat)

/-- The elements a table holds, with multiplicity. -/
def contents (table : List (Option α)) : Multiset α :=
  table.reduceOption

/-- No two elements of the table are related by `equal`. -/
def NoTwoEqual (equal : α → α → Prop) (table : List (Option α)) : Prop :=
  table.reduceOption.Pairwise fun first second => ¬ equal first second

/-- No empty slot lies on the arc from an element's home slot to the slot that
holds it. -/
def ProbePathsOccupied (table : List (Option α)) : Prop :=
  ∀ index element, table.getD index none = some element →
    ∀ position < table.length, OnArc table.length (home element) index position →
      table.getD position none ≠ none

/-- `ProbePathsOccupied` in the middle of a backward-shift deletion: `hole` is
the slot being emptied, the arc after it up to `scanned` has been checked, and
only an element outside that arc may still reach its slot through the hole. -/
def PathsOccupiedExcept (table : List (Option α)) (hole scanned : Nat) : Prop :=
  ∀ index element, table.getD index none = some element →
    ∀ position < table.length, OnArc table.length (home element) index position →
      table.getD position none ≠ none ∨
        position = hole ∧ ¬ OnArcAfter table.length hole scanned index

variable {home}

section Slots

variable {table : List (Option α)} {index position : Nat} {slot : Option α}

theorem lt_length_of_getD_ne_none (occupied : table.getD index none ≠ none) :
    index < table.length := by
  by_contra outside
  exact occupied (List.getD_eq_default _ _ (Nat.le_of_not_lt outside))

@[simp]
theorem getD_set_self (inside : index < table.length) : (table.set index slot).getD index none = slot := by
  simp [inside]

theorem getD_set_of_ne (ne : position ≠ index) :
    (table.set index slot).getD position none = table.getD position none := by
  simp [Ne.symm ne]

/-- Storing an element leaves every occupied slot occupied. -/
theorem getD_set_some_ne_none {element : α} (occupied : table.getD position none ≠ none) :
    (table.set index (some element)).getD position none ≠ none := by
  by_cases same : position = index
  · rw [same, getD_set_self (same ▸ lt_length_of_getD_ne_none occupied)]
    exact Option.some_ne_none element
  · rwa [getD_set_of_ne same]

theorem lt_length_of_getD_eq_some {element : α} (held : table.getD index none = some element) :
    index < table.length :=
  lt_length_of_getD_ne_none (by rw [held]; exact Option.some_ne_none element)

theorem mem_reduceOption_of_getD {element : α} (held : table.getD index none = some element) :
    element ∈ table.reduceOption := by
  rw [List.reduceOption_mem_iff]
  rw [List.getD_eq_getElem?_getD] at held
  cases found : table[index]? with
  | none =>
      rw [found, Option.getD_none] at held
      cases held
  | some slot =>
      rw [found, Option.getD_some] at held
      exact held ▸ List.mem_of_getElem? found

theorem mem_contents_of_getD {element : α} (held : table.getD index none = some element) :
    element ∈ contents table :=
  Multiset.mem_coe.mpr (mem_reduceOption_of_getD held)

theorem exists_getD_of_mem_contents {element : α} (member : element ∈ contents table) :
    ∃ index, table.getD index none = some element := by
  rw [contents, Multiset.mem_coe, List.reduceOption_mem_iff] at member
  obtain ⟨index, inside, held⟩ := List.getElem_of_mem member
  exact ⟨index, by rw [List.getD_eq_getElem _ _ inside, held]⟩

end Slots

section Contents

theorem contents_cons (slot : Option α) (table : List (Option α)) :
    contents (slot :: table) = ↑slot.toList + contents table := by
  cases slot <;> simp [contents]

/-- Overwriting a slot trades what it held for what is stored. -/
theorem contents_set {table : List (Option α)} {index : Nat} (slot : Option α)
    (inside : index < table.length) :
    contents (table.set index slot) + ↑(table.getD index none).toList =
      contents table + ↑slot.toList := by
  induction table generalizing index with
  | nil => exact absurd inside (Nat.not_lt_zero _)
  | cons first rest inductionHypothesis =>
      cases index with
      | zero =>
          simp only [List.set_cons_zero, contents_cons, List.getD_cons_zero]
          abel
      | succ index =>
          have restInside : index < rest.length := by simpa using inside
          simp only [List.set_cons_succ, contents_cons, List.getD_cons_succ, add_assoc,
            inductionHypothesis restInside]

theorem contents_set_of_none {table : List (Option α)} {index : Nat} (element : α)
    (inside : index < table.length) (free : table.getD index none = none) :
    contents (table.set index (some element)) = element ::ₘ contents table := by
  have traded := contents_set (some element) inside
  rw [free, Option.toList_none, Multiset.coe_nil, add_zero] at traded
  rw [traded, Option.toList_some, Multiset.coe_singleton, add_comm, Multiset.singleton_add]

theorem contents_set_none {table : List (Option α)} {index : Nat} {element : α}
    (held : table.getD index none = some element) :
    element ::ₘ contents (table.set index none) = contents table := by
  have traded := contents_set none (lt_length_of_getD_ne_none (held ▸ Option.some_ne_none element))
  rw [held, Option.toList_none, Multiset.coe_nil, add_zero, Option.toList_some,
    Multiset.coe_singleton, add_comm, Multiset.singleton_add] at traded
  exact traded

@[simp]
theorem contents_replicate_none (size : Nat) : contents (List.replicate size (none : Option α)) = 0 := by
  simp [contents]

/-- Moving an element into an empty slot keeps what the table holds. -/
theorem contents_move {table : List (Option α)} {hole position : Nat} {element : α}
    (holeLt : hole < table.length) (isHole : table.getD hole none = none)
    (held : table.getD position none = some element) (ne : position ≠ hole) :
    contents ((table.set hole (some element)).set position none) = contents table := by
  have stored := contents_set_of_none element holeLt isHole
  have heldAfter : (table.set hole (some element)).getD position none = some element := by
    rw [getD_set_of_ne ne, held]
  have removed := contents_set_none heldAfter
  rw [stored] at removed
  exact (Multiset.cons_inj_right element).mp removed

end Contents

section Equal

variable {equal : α → α → Prop}

theorem NoTwoEqual.of_contents_eq (symmetric : ∀ {a b}, equal a b → equal b a)
    {table other : List (Option α)} (noTwo : NoTwoEqual equal table)
    (same : contents other = contents table) : NoTwoEqual equal other := by
  have perm : other.reduceOption.Perm table.reduceOption := Multiset.coe_eq_coe.mp same
  exact (perm.pairwise_iff fun unequal converse => unequal (symmetric converse)).mpr noTwo

/-- A table with one element more, unequal to every other, has no two equal
elements. -/
theorem NoTwoEqual.cons (symmetric : ∀ {a b}, equal a b → equal b a)
    {table other : List (Option α)} {element : α} (noTwo : NoTwoEqual equal table)
    (fresh : ∀ held ∈ contents table, ¬ equal held element)
    (added : contents other = element ::ₘ contents table) : NoTwoEqual equal other := by
  have perm : other.reduceOption.Perm (element :: table.reduceOption) := Multiset.coe_eq_coe.mp added
  rw [NoTwoEqual, perm.pairwise_iff fun unequal converse => unequal (symmetric converse)]
  refine List.Pairwise.cons (fun held member converse => fresh held ?_ (symmetric converse)) noTwo
  exact Multiset.mem_coe.mpr member

/-- A table with one element less keeps no two equal. -/
theorem NoTwoEqual.of_cons (symmetric : ∀ {a b}, equal a b → equal b a)
    {table other : List (Option α)} {element : α} (noTwo : NoTwoEqual equal table)
    (removed : element ::ₘ contents other = contents table) : NoTwoEqual equal other := by
  have perm : (element :: other.reduceOption).Perm table.reduceOption := Multiset.coe_eq_coe.mp removed
  have larger := (perm.pairwise_iff fun unequal converse => unequal (symmetric converse)).mpr noTwo
  exact (List.pairwise_cons.mp larger).2

end Equal

section Paths

variable {table : List (Option α)}

/-- A probe for an element's home stops at an empty slot only past the
element. -/
theorem ProbePathsOccupied.arcLength_lt_of_free (paths : ProbePathsOccupied home table)
    {index free : Nat} {element : α} (held : table.getD index none = some element)
    (freeLt : free < table.length) (isFree : table.getD free none = none) :
    arcLength table.length (home element) index < arcLength table.length (home element) free := by
  by_contra notPast
  exact paths index element held free freeLt (Nat.le_of_not_lt notPast) isFree

/-- A table whose every element sits in its home slot has every probe path
occupied. -/
theorem ProbePathsOccupied.of_home
    (atHome : ∀ index element, table.getD index none = some element → home element = index) :
    ProbePathsOccupied home table := by
  intro index element found position positionLt onArc
  have indexLt := lt_length_of_getD_eq_some found
  rw [OnArc, atHome index element found, arcLength_self, Nat.le_zero,
    arcLength_eq_zero_iff indexLt] at onArc
  rw [onArc, found]
  exact Option.some_ne_none element

/-- A table of empty slots has every probe path occupied. -/
theorem ProbePathsOccupied.replicate_none (size : Nat) :
    ProbePathsOccupied home (List.replicate size (none : Option α)) :=
  ProbePathsOccupied.of_home fun index element found => by
    rw [List.getD_eq_getElem?_getD, List.getElem?_replicate] at found
    split at found <;> cases found

/-- Storing an element at the end of a walk from its home over occupied slots
keeps every probe path occupied. -/
theorem ProbePathsOccupied.set_of_passesBefore (paths : ProbePathsOccupied home table)
    {slot : Nat} {element : α} (homeLt : home element < table.length) (slotLt : slot < table.length)
    (before : PassesBefore table.length (home element) slot fun position =>
      table.getD position none ≠ none) :
    ProbePathsOccupied home (table.set slot (some element)) := by
  intro index held found position positionLt onArc
  rw [List.length_set] at positionLt onArc
  by_cases stored : index = slot
  · -- the new element: its path is the walk that reached `slot`
    rw [stored, getD_set_self slotLt, Option.some_inj] at found
    rw [stored, ← found] at onArc
    by_cases atSlot : position = slot
    · rw [atSlot, getD_set_self slotLt]
      exact Option.some_ne_none element
    · have shorter : arcLength table.length (home element) position <
          arcLength table.length (home element) slot := by
        have distinct := mt (eq_of_arcLength_eq homeLt positionLt slotLt) atSlot
        unfold OnArc at onArc
        omega
      exact getD_set_some_ne_none (before position positionLt shorter)
  · rw [getD_set_of_ne stored] at found
    exact getD_set_some_ne_none (paths index held found position positionLt onArc)

end Paths

section Deletion

/-! Backward-shift deletion.  `table` is the table with the hole emptied; the
deletion scans forward from the hole and moves back each element whose probe
path passes the hole. -/

variable {table : List (Option α)} {hole scanned : Nat}

/-- Emptying one slot of a table whose paths are occupied leaves them occupied
except through that slot. -/
theorem ProbePathsOccupied.pathsOccupiedExcept (paths : ProbePathsOccupied home table) (hole : Nat) :
    PathsOccupiedExcept home (table.set hole none) hole hole := by
  intro index element found position positionLt onArc
  rw [List.length_set] at positionLt onArc
  have indexNe : index ≠ hole := by
    rintro rfl
    have inside := lt_length_of_getD_eq_some found
    rw [List.length_set] at inside
    rw [getD_set_self inside] at found
    cases found
  rw [getD_set_of_ne indexNe] at found
  by_cases atHole : position = hole
  · refine .inr ⟨atHole, ?_⟩
    rw [List.length_set]
    rintro ⟨after, within⟩
    rw [arcLength_self] at within
    omega
  · rw [getD_set_of_ne atHole]
    exact .inl (paths index element found position positionLt onArc)

/-- The scan passes an element whose home lies after the hole: its path does
not pass the hole. -/
theorem PathsOccupiedExcept.skip (paths : PathsOccupiedExcept home table hole scanned)
    (holeLt : hole < table.length) (scannedLt : scanned < table.length)
    (homeLt : ∀ element, home element < table.length) (isHole : table.getD hole none = none)
    {element : α} (held : table.getD (ringNext table.length scanned) none = some element)
    (homeAfter : OnArcAfter table.length hole (ringNext table.length scanned) (home element)) :
    PathsOccupiedExcept home table hole (ringNext table.length scanned) := by
  have next : ringNext table.length scanned < table.length := ringNext_lt scannedLt
  have notClosing : ringNext table.length scanned ≠ hole := by
    rintro atHole
    rw [atHole, isHole] at held
    cases held
  intro index other found position positionLt onArc
  rcases paths index other found position positionLt onArc with occupied | ⟨atHole, outside⟩
  · exact .inl occupied
  · refine .inr ⟨atHole, ?_⟩
    rw [onArcAfter_ringNext_iff holeLt scannedLt (lt_length_of_getD_eq_some found) notClosing]
    rintro (before | rfl)
    · exact outside before
    · -- the scanned element itself: its home lies after the hole, so its path misses it
      rw [held, Option.some_inj] at found
      subst found
      exact not_onArc_of_onArcAfter holeLt next (homeLt _) homeAfter (atHole ▸ onArc)

/-- Moving into the hole an element whose path passes it makes the element's
old slot the hole. -/
theorem PathsOccupiedExcept.shift (paths : PathsOccupiedExcept home table hole scanned)
    (holeLt : hole < table.length) (scannedLt : scanned < table.length)
    (homeLt : ∀ element, home element < table.length) (isHole : table.getD hole none = none)
    {element : α} (held : table.getD (ringNext table.length scanned) none = some element)
    (homeOutside : ¬ OnArcAfter table.length hole (ringNext table.length scanned) (home element)) :
    PathsOccupiedExcept home ((table.set hole (some element)).set (ringNext table.length scanned) none)
      (ringNext table.length scanned) (ringNext table.length scanned) := by
  set next := ringNext table.length scanned with nextEq
  have nextLt : next < table.length := ringNext_lt scannedLt
  have nextNe : next ≠ hole := by
    rintro atHole
    rw [atHole, isHole] at held
    cases held
  -- the moved element's old path passes the hole, so its new path is a prefix of it
  have passesHole : OnArc table.length (home element) next hole :=
    onArc_of_not_onArcAfter holeLt (homeLt element) homeOutside
  have movedPath := paths next element held
  intro index other found position positionLt onArc
  simp only [List.length_set] at positionLt onArc ⊢
  by_cases atNext : position = next
  · exact .inr ⟨atNext, fun ⟨after, within⟩ => by rw [arcLength_self] at within; omega⟩
  refine .inl ?_
  rw [getD_set_of_ne atNext]
  by_cases positionAtHole : position = hole
  · rw [positionAtHole, getD_set_self holeLt]
    exact Option.some_ne_none element
  have indexNe : index ≠ next := by
    rintro rfl
    rw [getD_set_self (by simpa using nextLt)] at found
    cases found
  rw [getD_set_of_ne indexNe] at found
  rw [getD_set_of_ne positionAtHole]
  by_cases indexAtHole : index = hole
  · -- the moved element, now in the hole
    rw [indexAtHole, getD_set_self holeLt, Option.some_inj] at found
    rw [indexAtHole, ← found] at onArc
    have onOldPath : OnArc table.length (home element) next position := le_trans onArc passesHole
    rcases movedPath position positionLt onOldPath with occupied | ⟨atHole, _⟩
    · exact occupied
    · exact absurd atHole positionAtHole
  · rw [getD_set_of_ne indexAtHole] at found
    rcases paths index other found position positionLt onArc with occupied | ⟨atHole, _⟩
    · exact occupied
    · exact absurd atHole positionAtHole

/-- The scan that meets an empty slot ends with every probe path occupied. -/
theorem PathsOccupiedExcept.finish (paths : PathsOccupiedExcept home table hole scanned)
    (holeLt : hole < table.length) (scannedLt : scanned < table.length)
    (homeLt : ∀ element, home element < table.length) (isHole : table.getD hole none = none)
    (free : table.getD (ringNext table.length scanned) none = none)
    (notClosing : ringNext table.length scanned ≠ hole) :
    ProbePathsOccupied home table := by
  set next := ringNext table.length scanned with nextEq
  have nextLt : next < table.length := ringNext_lt scannedLt
  intro index element found position positionLt onArc
  have indexLt : index < table.length := lt_length_of_getD_eq_some found
  rcases paths index element found position positionLt onArc with occupied | ⟨atHole, outside⟩
  · exact occupied
  · -- a path through the hole from an unscanned slot would pass the empty slot first
    exfalso
    have indexNe : index ≠ hole := by
      rintro rfl
      rw [isHole] at found
      cases found
    have pastNext : OnArc table.length hole index next :=
      onArc_ringNext_of_not_onArcAfter holeLt scannedLt notClosing indexNe outside
    have throughNext : OnArc table.length (home element) index next :=
      OnArc.trans (homeLt element) indexLt holeLt nextLt (atHole ▸ onArc) pastNext
    rcases paths index element found next nextLt throughNext with occupied | ⟨nextAtHole, _⟩
    · exact occupied free
    · exact notClosing nextAtHole

end Deletion

end Table

end ArtRuntime.Search
