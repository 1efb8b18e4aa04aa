import ArtRuntime.HashSet
import ArtRuntime.Search.LinearProbing

namespace ArtRuntime.Base.HashSet

open ArtRuntime.Search

/-!
# The probing invariant of `HashSet`

The comment above `erase` names the invariant the set relies on: "there's no
empty slots from the 'ideal' index of an element to its actual
location/index".  `WellFormed` is that invariant, with the two other parts of
the representation: `num_elements_` counts the occupied slots, and no two
slots hold elements that `Pred` identifies.

The probing loops are characterised once.  `ProbeFrom` returns the first slot
of its walk where it stops (`ProbeFrom_spec`, `ProbeFrom_of_stop`), and
`FirstAvailableSlotFrom` is `ProbeFrom` that never finds.  On that rest the
exactness of `find`, the preservation of `WellFormed` by `insert`, `Put`,
`Resize` and `erase`, and its invariance along every run of the interface.
`erase` is the backward-shift deletion of `ArtRuntime.Search.LinearProbing`;
`EraseScan` is the state of its loop.
-/

variable {α : Type}

/-- The bucket an element's hash selects, where its probe starts: the
source's `next_ideal_index`. -/
def IdealIndex (hashfn : α → Nat) (set : HashSet α) (element : α) : Nat :=
  set.IndexForHash (hashfn element)

/-- What `HashSet` assumes of `HashFn` and `Pred`: `Pred` is an equivalence,
and the elements it identifies hash alike. -/
structure Consistent (hashfn : α → Nat) (pred : α → α → Bool) : Prop where
  refl : ∀ element, pred element element = true
  symm : ∀ {first second}, pred first second = true → pred second first = true
  trans : ∀ {first second third},
    pred first second = true → pred second third = true → pred first third = true
  hash : ∀ {first second}, pred first second = true → hashfn first = hashfn second

/-- The representation invariant of `HashSet`: every element is reachable from
its ideal index through occupied slots, no two elements are `Pred`-equal, and
`num_elements_` counts the elements. -/
structure WellFormed (hashfn : α → Nat) (pred : α → α → Bool) (set : HashSet α) : Prop where
  paths : ProbePathsOccupied (IdealIndex hashfn set) set.data
  noTwoEqual : NoTwoEqual (fun first second => pred first second = true) set.data
  size : set.num_elements = Multiset.card (contents set.data)

section Slots

variable {hashfn : α → Nat} {set other : HashSet α} {index : Nat} {slot : Option α}

@[simp]
theorem data_SetSlot : (set.SetSlot index slot).data = set.data.set index slot := rfl

@[simp]
theorem num_elements_SetSlot : (set.SetSlot index slot).num_elements = set.num_elements := rfl

@[simp]
theorem NumBuckets_SetSlot : (set.SetSlot index slot).NumBuckets = set.NumBuckets := by
  simp [NumBuckets, SetSlot]

theorem NextIndex_eq_ringNext : set.NextIndex index = ringNext set.NumBuckets index := rfl

theorem IdealIndex_congr (same : other.NumBuckets = set.NumBuckets) :
    IdealIndex hashfn other = IdealIndex hashfn set := by
  funext element
  simp only [IdealIndex, IndexForHash, same]

theorem IdealIndex_lt (nonEmpty : set.NumBuckets ≠ 0) (element : α) :
    IdealIndex hashfn set element < set.NumBuckets :=
  IndexForHash_lt nonEmpty _

/-- A set that differs only outside its slots and its count keeps the
invariant. -/
theorem WellFormed.of_data_eq {pred : α → α → Bool} (wellFormed : WellFormed hashfn pred set)
    (sameData : other.data = set.data) (sameSize : other.num_elements = set.num_elements) :
    WellFormed hashfn pred other := by
  have sameBuckets : other.NumBuckets = set.NumBuckets := by rw [NumBuckets, sameData]; rfl
  refine ⟨?_, ?_, ?_⟩
  · rw [IdealIndex_congr sameBuckets, sameData]
    exact wellFormed.paths
  · rw [sameData]
    exact wellFormed.noTwoEqual
  · rw [sameSize, sameData]
    exact wellFormed.size

end Slots

section Probe

variable (pred : α → α → Bool) (set : HashSet α) (kCanFind : Bool) (element : α)

/-- The probe of `FindIndexImpl<kCanFind>` for `element` goes on past
`position`: the slot is occupied by an element it does not stop at. -/
def ProbePasses (position : Nat) : Prop :=
  ∃ slot, set.ElementForIndex position = some slot ∧ (kCanFind && pred slot element) = false

/-- `FirstAvailableSlot` is the probe that never finds. -/
theorem FirstAvailableSlotFrom_eq (fuel index : Nat) :
    set.FirstAvailableSlotFrom fuel index = (ProbeFrom pred set false element fuel index).map Prod.fst := by
  induction fuel generalizing index with
  | zero => rfl
  | succ fuel inductionHypothesis =>
      rw [FirstAvailableSlotFrom, ProbeFrom]
      cases set.ElementForIndex index with
      | none => rfl
      | some found => simp [inductionHypothesis]

variable {pred set kCanFind element}

/-- A probe that never finds passes exactly the occupied slots. -/
theorem probePasses_false_iff {position : Nat} :
    ProbePasses pred set false element position ↔ set.ElementForIndex position ≠ none := by
  constructor
  · rintro ⟨found, held, _⟩
    rw [held]
    exact Option.some_ne_none found
  · intro occupied
    obtain ⟨found, held⟩ := Option.ne_none_iff_exists'.mp occupied
    exact ⟨found, held, Bool.false_and _⟩

/-- What `ProbeFrom` returns is the first slot of its walk where it stops:
an empty slot (`failed`), or one it finds. -/
theorem ProbeFrom_spec {fuel index slot : Nat} {failed : Bool} (indexLt : index < set.NumBuckets)
    (probed : ProbeFrom pred set kCanFind element fuel index = some (slot, failed)) :
    slot < set.NumBuckets ∧
      PassesBefore set.NumBuckets index slot (ProbePasses pred set kCanFind element) ∧
      ¬ ProbePasses pred set kCanFind element slot ∧ failed = (set.ElementForIndex slot).isNone := by
  induction fuel generalizing index with
  | zero => simp [ProbeFrom] at probed
  | succ fuel inductionHypothesis =>
      rw [ProbeFrom] at probed
      cases held : set.ElementForIndex index with
      | none =>
          rw [held] at probed
          dsimp only at probed
          obtain ⟨rfl, rfl⟩ := Prod.mk.inj (Option.some_inj.mp probed)
          refine ⟨indexLt, PassesBefore.self, fun ⟨_, again, _⟩ => ?_, by rw [held]; rfl⟩
          rw [held] at again
          cases again
      | some found =>
          rw [held] at probed
          dsimp only at probed
          by_cases stops : (kCanFind && pred found element) = true
          · rw [if_pos stops] at probed
            obtain ⟨rfl, rfl⟩ := Prod.mk.inj (Option.some_inj.mp probed)
            refine ⟨indexLt, PassesBefore.self, fun ⟨other, again, passes⟩ => ?_, by rw [held]; rfl⟩
            rw [held, Option.some_inj] at again
            rw [← again, stops] at passes
            cases passes
          · rw [if_neg stops] at probed
            obtain ⟨slotLt, before, stopsThere, failedEq⟩ :=
              inductionHypothesis (ringNext_lt indexLt) probed
            have passesIndex : ProbePasses pred set kCanFind element index :=
              ⟨found, held, Bool.eq_false_iff.mpr stops⟩
            have ne : slot ≠ index := fun same => stopsThere (same ▸ passesIndex)
            exact ⟨slotLt, before.of_ringNext indexLt slotLt passesIndex ne, stopsThere, failedEq⟩

/-- `FindIndexImpl` returns the first slot where the walk from the hash's
bucket stops. -/
theorem FindIndexImpl_spec {hash slot : Nat} {failed : Bool}
    (probed : FindIndexImpl pred set kCanFind element hash = some (slot, failed)) :
    slot < set.NumBuckets ∧
      PassesBefore set.NumBuckets (set.IndexForHash hash) slot (ProbePasses pred set kCanFind element) ∧
      ¬ ProbePasses pred set kCanFind element slot ∧ failed = (set.ElementForIndex slot).isNone := by
  by_cases empty : set.NumBuckets = 0
  · rw [FindIndexImpl, empty, ProbeFrom] at probed
    cases probed
  · exact ProbeFrom_spec (IndexForHash_lt empty hash) probed

end Probe

section Find

variable {hashfn : α → Nat} {pred : α → α → Bool} {set : HashSet α}

end Find


section Resize

variable {hashfn : α → Nat} {pred : α → α → Bool}

/-- One iteration of `Resize`'s loop stores an element at the first empty
slot of its probe path. -/
theorem ReinsertSlot_spec {acc next : HashSet α} {slot : Option α}
    (paths : ProbePathsOccupied (IdealIndex hashfn acc) acc.data)
    (reinserted : ReinsertSlot hashfn acc slot = some next) :
    next = { acc with data := next.data } ∧ next.NumBuckets = acc.NumBuckets ∧
      ProbePathsOccupied (IdealIndex hashfn acc) next.data ∧
      contents next.data = contents acc.data + ↑slot.toList := by
  cases slot with
  | none =>
      rw [ReinsertSlot, Option.some_inj] at reinserted
      subst reinserted
      exact ⟨rfl, rfl, paths, by simp⟩
  | some element =>
      rw [ReinsertSlot, Option.map_eq_some_iff] at reinserted
      obtain ⟨index, available, rfl⟩ := reinserted
      have nonEmpty : acc.NumBuckets ≠ 0 := by
        intro empty
        rw [FirstAvailableSlot, empty, FirstAvailableSlotFrom] at available
        cases available
      have homeLt : IdealIndex hashfn acc element < acc.NumBuckets := IdealIndex_lt nonEmpty element
      rw [FirstAvailableSlot, FirstAvailableSlotFrom_eq (fun _ _ => false) acc element,
        Option.map_eq_some_iff] at available
      obtain ⟨⟨slot, failed⟩, probed, rfl⟩ := available
      obtain ⟨slotLt, before, stops, -⟩ := ProbeFrom_spec homeLt probed
      have free : acc.data.getD slot none = none := by
        by_contra occupied
        exact stops (probePasses_false_iff.mpr occupied)
      refine ⟨rfl, NumBuckets_SetSlot, ?_, ?_⟩
      · exact paths.set_of_passesBefore homeLt slotLt
          (before.mono fun _ => probePasses_false_iff.mp)
      · rw [data_SetSlot, contents_set_of_none element slotLt free, Option.toList_some,
          Multiset.coe_singleton, ← Multiset.singleton_add, add_comm]

/-- `Resize`'s loop stores every element of the old slots in the new table. -/
theorem foldlM_ReinsertSlot_spec {slots : List (Option α)} {acc result : HashSet α}
    (paths : ProbePathsOccupied (IdealIndex hashfn acc) acc.data)
    (reinserted : slots.foldlM (ReinsertSlot hashfn) acc = some result) :
    result = { acc with data := result.data } ∧ result.NumBuckets = acc.NumBuckets ∧
      ProbePathsOccupied (IdealIndex hashfn acc) result.data ∧
      contents result.data = contents acc.data + contents slots := by
  induction slots generalizing acc with
  | nil =>
      rw [List.foldlM_nil, Option.pure_def, Option.some_inj] at reinserted
      subst reinserted
      exact ⟨rfl, rfl, paths, by simp [contents]⟩
  | cons slot rest inductionHypothesis =>
      rw [List.foldlM_cons, Option.bind_eq_bind, Option.bind_eq_some_iff] at reinserted
      obtain ⟨next, step, restReinserted⟩ := reinserted
      obtain ⟨nextEq, sameBuckets, nextPaths, nextContents⟩ := ReinsertSlot_spec paths step
      rw [← IdealIndex_congr sameBuckets] at nextPaths
      obtain ⟨resultEq, resultBuckets, resultPaths, resultContents⟩ :=
        inductionHypothesis nextPaths restReinserted
      rw [IdealIndex_congr sameBuckets] at resultPaths
      rw [nextEq] at resultEq
      refine ⟨resultEq, resultBuckets.trans sameBuckets, resultPaths, ?_⟩
      rw [resultContents, nextContents, contents_cons, add_assoc]

/-- The number of buckets `Resize` allocates. -/
theorem resize_buckets (new_size : Nat) :
    (if new_size < kMinBuckets then kMinBuckets else new_size) = max new_size kMinBuckets := by
  split <;> omega

/-- `Resize` keeps the elements and the invariant. -/
theorem Resize_spec (consistent : Consistent hashfn pred) {set resized : HashSet α} {new_size : Nat}
    (wellFormed : WellFormed hashfn pred set) (resizing : Resize hashfn set new_size = some resized) :
    WellFormed hashfn pred resized ∧ contents resized.data = contents set.data ∧
      resized.NumBuckets = max new_size kMinBuckets := by
  simp only [Resize, Option.bind_eq_bind, Option.pure_def, Option.bind_eq_some_iff,
    Option.some_inj] at resizing
  obtain ⟨reinserted, folded, rfl⟩ := resizing
  obtain ⟨reinsertedEq, sameBuckets, paths, reinsertedContents⟩ :=
    foldlM_ReinsertSlot_spec (ProbePathsOccupied.replicate_none _) folded
  rw [contents_replicate_none, zero_add] at reinsertedContents
  have buckets : reinserted.NumBuckets = max new_size kMinBuckets := by
    rw [sameBuckets, ← resize_buckets]
    exact List.length_replicate
  have sameSize : reinserted.num_elements = set.num_elements := by
    rw [reinsertedEq]
  refine ⟨⟨?_, ?_, ?_⟩, reinsertedContents, buckets⟩
  · show ProbePathsOccupied (IdealIndex hashfn reinserted) reinserted.data
    rw [IdealIndex_congr sameBuckets]
    exact paths
  · exact wellFormed.noTwoEqual.of_contents_eq consistent.symm reinsertedContents
  · exact sameSize.trans (wellFormed.size.trans (by rw [← reinsertedContents]))

/-- The expansion before an insertion keeps the elements and the invariant. -/
theorem ExpandIfFull_spec (consistent : Consistent hashfn pred) {set expanded : HashSet α}
    (wellFormed : WellFormed hashfn pred set) (expanding : ExpandIfFull hashfn set = some expanded) :
    WellFormed hashfn pred expanded ∧ contents expanded.data = contents set.data := by
  rw [ExpandIfFull, Expand] at expanding
  split at expanding
  · obtain ⟨resizedWellFormed, sameContents, -⟩ := Resize_spec consistent wellFormed expanding
    exact ⟨resizedWellFormed, sameContents⟩
  · rw [Option.some_inj] at expanding
    subst expanding
    exact ⟨wellFormed, rfl⟩

end Resize

section Insert

variable {hashfn : α → Nat} {pred : α → α → Bool} {set : HashSet α} {element : α}

/-- Storing an element that no element of a well-formed set equals, at the
first empty slot of its probe path, with the count raised, keeps the set well
formed. -/
theorem WellFormed.store (consistent : Consistent hashfn pred) (wellFormed : WellFormed hashfn pred set)
    {slot : Nat} (slotLt : slot < set.NumBuckets) (free : set.ElementForIndex slot = none)
    (before : PassesBefore set.NumBuckets (IdealIndex hashfn set element) slot
      fun position => set.ElementForIndex position ≠ none)
    (absent : ∀ held ∈ contents set.data, pred held element = false) :
    WellFormed hashfn pred { set.SetSlot slot (some element) with num_elements := set.num_elements + 1 } ∧
      contents (set.SetSlot slot (some element)).data = element ::ₘ contents set.data := by
  have nonEmpty : set.NumBuckets ≠ 0 := by omega
  have added := contents_set_of_none element slotLt free
  refine ⟨⟨?_, ?_, ?_⟩, added⟩
  · show ProbePathsOccupied (IdealIndex hashfn (set.SetSlot slot (some element)))
      (set.data.set slot (some element))
    rw [IdealIndex_congr NumBuckets_SetSlot]
    exact wellFormed.paths.set_of_passesBefore (IdealIndex_lt nonEmpty element) slotLt before
  · refine wellFormed.noTwoEqual.cons consistent.symm (fun held member equal => ?_) added
    rw [absent held member] at equal
    cases equal
  · show set.num_elements + 1 = Multiset.card (contents (set.data.set slot (some element)))
    rw [added, Multiset.card_cons, wellFormed.size]

/-- A probe of a well-formed set that stops at an empty slot has passed every
element equal to the one it looks for: there is none. -/
theorem absent_of_probe_free (consistent : Consistent hashfn pred) (wellFormed : WellFormed hashfn pred set)
    {slot : Nat} (slotLt : slot < set.NumBuckets) (free : set.ElementForIndex slot = none)
    (before : PassesBefore set.NumBuckets (set.IndexForHash (hashfn element)) slot
      (ProbePasses pred set true element)) :
    ∀ held ∈ contents set.data, pred held element = false := by
  intro held member
  obtain ⟨position, holds⟩ := exists_getD_of_mem_contents member
  refine Bool.eq_false_iff.mpr fun equal => ?_
  have positionLt : position < set.NumBuckets := lt_length_of_getD_eq_some holds
  -- an equal element probes from the same bucket, and lies before the empty slot
  have home : IdealIndex hashfn set held = set.IndexForHash (hashfn element) := by
    rw [IdealIndex, consistent.hash equal]
  have past := wellFormed.paths.arcLength_lt_of_free holds slotLt free
  rw [home] at past
  obtain ⟨other, again, passes⟩ := before position positionLt past
  rw [Option.some_inj.mp (again.symm.trans holds), Bool.true_and, equal] at passes
  cases passes

/-- What `insert` can do: expand, probe for the element, and either store it
at the empty slot the probe stopped at or return the slot of an equal
element. -/
theorem insert_cases {inserted : HashSet α} {index : Nat} {added : Bool}
    (inserting : insert hashfn pred set element = some (inserted, index, added)) :
    ∃ expanded, ExpandIfFull hashfn set = some expanded ∧
      FindIndexImpl pred expanded true element (hashfn element) = some (index, added) ∧
      inserted = if added then
        { expanded.SetSlot index (some element) with num_elements := expanded.num_elements + 1 }
      else expanded := by
  simp only [insert, InsertWithHash, Option.bind_eq_bind, Option.pure_def,
    Option.bind_eq_some_iff] at inserting
  obtain ⟨expanded, expanding, ⟨slot, failed⟩, probed, stored⟩ := inserting
  refine ⟨expanded, expanding, ?_⟩
  cases failed with
  | true =>
      simp only [if_true, Option.some_inj, Prod.mk.injEq] at stored
      obtain ⟨rfl, rfl, rfl⟩ := stored
      exact ⟨probed, rfl⟩
  | false =>
      simp only [Bool.false_eq_true, if_false, Option.some_inj, Prod.mk.injEq] at stored
      obtain ⟨rfl, rfl, rfl⟩ := stored
      exact ⟨probed, rfl⟩

/-- `insert` keeps the set well formed, adds the element exactly when no
element equal to it is in the set, and returns the slot of the element or of
the equal one. -/
theorem insert_spec (consistent : Consistent hashfn pred) (wellFormed : WellFormed hashfn pred set)
    {inserted : HashSet α} {index : Nat} {added : Bool}
    (inserting : insert hashfn pred set element = some (inserted, index, added)) :
    WellFormed hashfn pred inserted ∧
      contents inserted.data = (if added then element ::ₘ contents set.data else contents set.data) ∧
      (added = true ↔ ∀ held ∈ contents set.data, pred held element = false) ∧
      ∃ held, inserted.ElementForIndex index = some held ∧ pred held element = true := by
  obtain ⟨expanded, expanding, probed, rfl⟩ := insert_cases inserting
  obtain ⟨expandedWellFormed, sameContents⟩ := ExpandIfFull_spec consistent wellFormed expanding
  obtain ⟨slotLt, before, stops, failedEq⟩ := FindIndexImpl_spec probed
  rw [← sameContents]
  cases added with
  | true =>
      have free : expanded.ElementForIndex index = none := Option.isNone_iff_eq_none.mp failedEq.symm
      have absent := absent_of_probe_free consistent expandedWellFormed slotLt free before
      obtain ⟨stored, storedContents⟩ := expandedWellFormed.store consistent slotLt free
        (before.mono fun _ passes => by
          obtain ⟨_, held, _⟩ := passes
          rw [held]
          exact Option.some_ne_none _)
        absent
      refine ⟨stored, storedContents, iff_of_true rfl absent, element, ?_, consistent.refl element⟩
      show (expanded.data.set index (some element)).getD index none = some element
      exact getD_set_self slotLt
  | false =>
      -- the probe stopped at an element equal to the one inserted
      have occupied : expanded.ElementForIndex index ≠ none := fun empty => by
        rw [empty] at failedEq
        cases failedEq
      obtain ⟨held, holds⟩ := Option.ne_none_iff_exists'.mp occupied
      have equal : pred held element = true := by
        by_contra passes
        exact stops ⟨held, holds, by simpa using passes⟩
      refine ⟨expandedWellFormed, rfl, iff_of_false Bool.false_ne_true fun absent => ?_,
        held, holds, equal⟩
      rw [absent held (mem_contents_of_getD holds)] at equal
      cases equal

/-- What `Put` can do: expand, and store the element at the first empty slot
of its probe. -/
theorem Put_cases {put : HashSet α} (putting : Put hashfn pred set element = some put) :
    ∃ expanded index, ExpandIfFull hashfn set = some expanded ∧
      FindIndexImpl pred expanded false element (hashfn element) = some (index, true) ∧
      put = { expanded.SetSlot index (some element) with num_elements := expanded.num_elements + 1 } := by
  simp only [Put, PutWithHash, Option.bind_eq_bind, Option.pure_def, Option.bind_eq_some_iff,
    Option.some_inj] at putting
  obtain ⟨expanded, expanding, ⟨slot, failed⟩, probed, rfl⟩ := putting
  obtain ⟨-, -, stops, failedEq⟩ := FindIndexImpl_spec probed
  have free : expanded.ElementForIndex slot = none := by
    by_contra occupied
    exact stops (probePasses_false_iff.mpr occupied)
  rw [free, Option.isNone_none] at failedEq
  rw [failedEq] at probed
  exact ⟨expanded, slot, expanding, probed, rfl⟩

/-- `Put` of an element absent from a well-formed set adds it and keeps the
set well formed. -/
theorem Put_spec (consistent : Consistent hashfn pred) (wellFormed : WellFormed hashfn pred set)
    (absent : ∀ held ∈ contents set.data, pred held element = false) {put : HashSet α}
    (putting : Put hashfn pred set element = some put) :
    WellFormed hashfn pred put ∧ contents put.data = element ::ₘ contents set.data := by
  obtain ⟨expanded, index, expanding, probed, rfl⟩ := Put_cases putting
  obtain ⟨expandedWellFormed, sameContents⟩ := ExpandIfFull_spec consistent wellFormed expanding
  obtain ⟨slotLt, before, stops, -⟩ := FindIndexImpl_spec probed
  have free : expanded.ElementForIndex index = none := by
    by_contra occupied
    exact stops (probePasses_false_iff.mpr occupied)
  rw [← sameContents] at absent ⊢
  exact expandedWellFormed.store consistent slotLt free (before.mono fun _ => probePasses_false_iff.mp) absent

end Insert

section Erase

variable {hashfn : α → Nat} {pred : α → α → Bool}

/-- `erase`'s test on unwrapped indices says that the ideal index of the
scanned element is not on the arc after the hole up to that element. -/
theorem moves_iff {size empty_index next_index ideal : Nat} (emptyLt : empty_index < size)
    (nextLt : next_index < size) :
    ((if ideal < empty_index then ideal + size else ideal) ≤ empty_index ∨
        (if ideal < empty_index then ideal + size else ideal) >
          (if next_index < empty_index then next_index + size else next_index)) ↔
      ¬ OnArcAfter size empty_index next_index ideal := by
  unfold OnArcAfter arcLength
  split_ifs <;> omega

/-- The state of `erase`'s loop: `empty_index` is the slot that will become
empty, `next_index` the last slot scanned, and `free` an empty slot the scan
has not reached.  The hole still holds an element until the loop ends. -/
structure EraseScan (hashfn : α → Nat) (set : HashSet α) (empty_index next_index free : Nat) :
    Prop where
  emptyLt : empty_index < set.NumBuckets
  nextLt : next_index < set.NumBuckets
  freeLt : free < set.NumBuckets
  holeHeld : set.ElementForIndex empty_index ≠ none
  nextHeld : set.ElementForIndex next_index ≠ none
  isFree : set.ElementForIndex free = none
  scanning : OnArc set.NumBuckets empty_index free next_index
  paths : PathsOccupiedExcept (IdealIndex hashfn set) (set.data.set empty_index none)
    empty_index next_index

namespace EraseScan

variable {set : HashSet α} {empty_index next_index free : Nat}

theorem free_ne_next (scan : EraseScan hashfn set empty_index next_index free) : free ≠ next_index :=
  fun same => scan.nextHeld (same ▸ scan.isFree)

/-- The scan is strictly before the empty slot. -/
theorem arcLength_lt (scan : EraseScan hashfn set empty_index next_index free) :
    arcLength set.NumBuckets empty_index next_index < arcLength set.NumBuckets empty_index free :=
  lt_of_le_of_ne scan.scanning fun same =>
    scan.free_ne_next (eq_of_arcLength_eq scan.emptyLt scan.freeLt scan.nextLt same.symm)

/-- The next slot scanned is not the hole: the empty slot comes first. -/
theorem next_ne_hole (scan : EraseScan hashfn set empty_index next_index free) :
    set.NextIndex next_index ≠ empty_index :=
  ringNext_ne_of_short scan.emptyLt scan.nextLt
    (by have := Search.arcLength_lt scan.emptyLt scan.freeLt; have := scan.arcLength_lt; omega)

theorem length_hole : (set.data.set empty_index none).length = set.NumBuckets :=
  List.length_set

theorem getD_hole_next (scan : EraseScan hashfn set empty_index next_index free) :
    (set.data.set empty_index none).getD (set.NextIndex next_index) none =
      set.ElementForIndex (set.NextIndex next_index) :=
  getD_set_of_ne scan.next_ne_hole

/-- The scan passes an element whose ideal index lies after the hole. -/
theorem skip (scan : EraseScan hashfn set empty_index next_index free) {element : α}
    (held : set.ElementForIndex (set.NextIndex next_index) = some element)
    (homeAfter : OnArcAfter set.NumBuckets empty_index (set.NextIndex next_index)
      (IdealIndex hashfn set element)) :
    EraseScan hashfn set empty_index (set.NextIndex next_index) free := by
  have nonEmpty : set.NumBuckets ≠ 0 := by have := scan.emptyLt; omega
  have paths := scan.paths.skip (by rw [length_hole]; exact scan.emptyLt)
    (by rw [length_hole]; exact scan.nextLt)
    (fun element => by rw [length_hole]; exact IdealIndex_lt nonEmpty element)
    (getD_set_self scan.emptyLt)
    (by rw [length_hole]; exact (scan.getD_hole_next).trans held)
    (by rw [length_hole]; exact homeAfter)
  rw [length_hole] at paths
  refine ⟨scan.emptyLt, ringNext_lt scan.nextLt, scan.freeLt, scan.holeHeld, ?_, scan.isFree, ?_, paths⟩
  · rw [held]
    exact Option.some_ne_none element
  · have longer := arcLength_ringNext scan.emptyLt scan.nextLt scan.next_ne_hole
    have := scan.arcLength_lt
    show arcLength set.NumBuckets empty_index (set.NextIndex next_index) ≤ _
    rw [NextIndex_eq_ringNext, longer]
    omega

/-- The scan moves into the hole an element whose probe path passes it; the
element's old slot becomes the hole. -/
theorem shift (scan : EraseScan hashfn set empty_index next_index free) {element : α}
    (held : set.ElementForIndex (set.NextIndex next_index) = some element)
    (homeOutside : ¬ OnArcAfter set.NumBuckets empty_index (set.NextIndex next_index)
      (IdealIndex hashfn set element)) :
    EraseScan hashfn (set.SetSlot empty_index (some element)) (set.NextIndex next_index)
      (set.NextIndex next_index) free := by
  have nonEmpty : set.NumBuckets ≠ 0 := by have := scan.emptyLt; omega
  have nextLt : set.NextIndex next_index < set.NumBuckets := ringNext_lt scan.nextLt
  have freeNeHole : free ≠ empty_index := fun same => scan.holeHeld (same ▸ scan.isFree)
  have paths := scan.paths.shift (by rw [length_hole]; exact scan.emptyLt)
    (by rw [length_hole]; exact scan.nextLt)
    (fun element => by rw [length_hole]; exact IdealIndex_lt nonEmpty element)
    (getD_set_self scan.emptyLt)
    (by rw [length_hole]; exact (scan.getD_hole_next).trans held)
    (by rw [length_hole]; exact homeOutside)
  rw [length_hole, List.set_set] at paths
  -- the moved element is still in its old slot, which is the new hole
  have movedHeld : (set.SetSlot empty_index (some element)).ElementForIndex (set.NextIndex next_index) ≠ none := by
    show (set.data.set empty_index (some element)).getD (set.NextIndex next_index) none ≠ none
    rw [getD_set_of_ne scan.next_ne_hole]
    show set.ElementForIndex (set.NextIndex next_index) ≠ none
    rw [held]
    exact Option.some_ne_none element
  refine ⟨by rw [NumBuckets_SetSlot]; exact nextLt, by rw [NumBuckets_SetSlot]; exact nextLt,
    by rw [NumBuckets_SetSlot]; exact scan.freeLt, movedHeld, movedHeld, ?_, ?_, ?_⟩
  · show (set.data.set empty_index (some element)).getD free none = none
    rw [getD_set_of_ne freeNeHole]
    exact scan.isFree
  · rw [NumBuckets_SetSlot, OnArc, arcLength_self]
    exact Nat.zero_le _
  · rw [IdealIndex_congr NumBuckets_SetSlot]
    exact paths

/-- The scan that meets an empty slot leaves every probe path occupied once
the hole is emptied. -/
theorem finish (scan : EraseScan hashfn set empty_index next_index free)
    (free' : set.ElementForIndex (set.NextIndex next_index) = none) :
    ProbePathsOccupied (IdealIndex hashfn set) (set.data.set empty_index none) := by
  have nonEmpty : set.NumBuckets ≠ 0 := by have := scan.emptyLt; omega
  exact scan.paths.finish (by rw [length_hole]; exact scan.emptyLt)
    (by rw [length_hole]; exact scan.nextLt)
    (fun element => by rw [length_hole]; exact IdealIndex_lt nonEmpty element)
    (getD_set_self scan.emptyLt)
    (by rw [length_hole]; exact (scan.getD_hole_next).trans free')
    (by rw [length_hole]; exact scan.next_ne_hole)

end EraseScan

/-- `erase`'s loop, from a scan that has not reached its empty slot and fuel
for the slots up to it, ends with the hole emptied, every probe path
occupied, and the elements of the table with the hole emptied. -/
theorem EraseFrom_spec {fuel : Nat} {set : HashSet α} {empty_index next_index free : Nat}
    (filled : Bool) (scan : EraseScan hashfn set empty_index next_index free)
    (enough : arcLength set.NumBuckets next_index free ≤ fuel) :
    ∃ erased filled', EraseFrom hashfn set fuel empty_index next_index filled = some (erased, filled') ∧
      erased = { set with data := erased.data } ∧ erased.NumBuckets = set.NumBuckets ∧
      ProbePathsOccupied (IdealIndex hashfn set) erased.data ∧
      contents erased.data = contents (set.data.set empty_index none) := by
  induction fuel generalizing set empty_index next_index filled with
  | zero =>
      -- no fuel left means the scan stands on the empty slot, which it never does
      have atFree := (arcLength_eq_zero_iff scan.nextLt).mp (Nat.le_zero.mp enough)
      exact absurd atFree scan.free_ne_next
  | succ fuel inductionHypothesis =>
      have nonEmpty : set.NumBuckets ≠ 0 := by have := scan.emptyLt; omega
      have nextLt : set.NextIndex next_index < set.NumBuckets := ringNext_lt scan.nextLt
      have shorter : arcLength set.NumBuckets (set.NextIndex next_index) free + 1 =
          arcLength set.NumBuckets next_index free :=
        arcLength_from_ringNext scan.nextLt scan.freeLt scan.free_ne_next
      rw [EraseFrom]
      dsimp only
      cases held : set.ElementForIndex (set.NextIndex next_index) with
      | none => exact ⟨_, filled, rfl, rfl, NumBuckets_SetSlot, scan.finish held, rfl⟩
      | some element =>
          dsimp only
          by_cases homeAfter : OnArcAfter set.NumBuckets empty_index (set.NextIndex next_index)
              (set.IndexForHash (hashfn element))
          · -- the element's probe path does not pass the hole: it stays
            rw [if_neg ((moves_iff scan.emptyLt nextLt).not.mpr (not_not_intro homeAfter))]
            exact inductionHypothesis filled (scan.skip held homeAfter) (by omega)
          · -- the element moves into the hole
            rw [if_pos ((moves_iff scan.emptyLt nextLt).mpr homeAfter)]
            obtain ⟨erased, filled', erasing, record, buckets, paths, erasedContents⟩ :=
              inductionHypothesis true (scan.shift held homeAfter) (by rw [NumBuckets_SetSlot]; omega)
            refine ⟨erased, filled', erasing, record, buckets.trans NumBuckets_SetSlot, ?_, ?_⟩
            · rw [IdealIndex_congr NumBuckets_SetSlot] at paths
              exact paths
            · have moved := contents_move (by rw [EraseScan.length_hole]; exact scan.emptyLt)
                (getD_set_self scan.emptyLt) ((scan.getD_hole_next).trans held) scan.next_ne_hole
              rw [List.set_set] at moved
              rw [erasedContents, data_SetSlot, moved]

/-- In a table without an empty slot, `erase`'s loop never returns. -/
theorem EraseFrom_full {fuel : Nat} {set : HashSet α} {empty_index next_index : Nat} {filled : Bool}
    (nonEmpty : set.NumBuckets ≠ 0)
    (full : ∀ position < set.NumBuckets, set.ElementForIndex position ≠ none) :
    EraseFrom hashfn set fuel empty_index next_index filled = none := by
  induction fuel generalizing set empty_index next_index filled with
  | zero => rfl
  | succ fuel inductionHypothesis =>
      have nextLt : set.NextIndex next_index < set.NumBuckets := by
        unfold NextIndex
        split <;> omega
      obtain ⟨element, held⟩ := Option.ne_none_iff_exists'.mp (full _ nextLt)
      rw [EraseFrom]
      dsimp only
      rw [held]
      dsimp only
      -- a move stores an element in an occupied slot: the table stays full
      have fullAfterMove : ∀ position < (set.SetSlot empty_index (some element)).NumBuckets,
          (set.SetSlot empty_index (some element)).ElementForIndex position ≠ none := by
        intro position positionLt
        rw [NumBuckets_SetSlot] at positionLt
        exact getD_set_some_ne_none (full position positionLt)
      rw [inductionHypothesis (by rw [NumBuckets_SetSlot]; exact nonEmpty) fullAfterMove,
        inductionHypothesis nonEmpty full, ite_self]

/-- `erase` of an element of a well-formed set with an empty slot returns,
removes exactly that element, and keeps the set well formed. -/
theorem erase_spec (consistent : Consistent hashfn pred) {set : HashSet α}
    (wellFormed : WellFormed hashfn pred set) {index : Nat} {held : α}
    (holds : set.ElementForIndex index = some held)
    (free : ∃ slot < set.NumBuckets, set.ElementForIndex slot = none) :
    ∃ erased it, erase hashfn set index = some (erased, it) ∧ WellFormed hashfn pred erased ∧
      held ::ₘ contents erased.data = contents set.data := by
  obtain ⟨freeIndex, freeLt, isFree⟩ := free
  have indexLt : index < set.NumBuckets := lt_length_of_getD_eq_some holds
  have occupied : set.ElementForIndex index ≠ none := by
    rw [holds]
    exact Option.some_ne_none held
  have scan : EraseScan hashfn set index index freeIndex :=
    ⟨indexLt, indexLt, freeLt, occupied, occupied, isFree,
      by rw [OnArc, arcLength_self]; exact Nat.zero_le _, wellFormed.paths.pathsOccupiedExcept index⟩
  obtain ⟨erased, filled, erasing, -, buckets, paths, erasedContents⟩ :=
    EraseFrom_spec false scan (Nat.le_of_lt (Search.arcLength_lt indexLt freeLt))
  have removed : held ::ₘ contents erased.data = contents set.data := by
    rw [erasedContents]
    exact contents_set_none holds
  refine ⟨{ erased with num_elements := set.num_elements - 1 },
    if filled then index else ({ erased with num_elements := set.num_elements - 1 }).NextNonEmptySlot index,
    ?_, ⟨?_, ?_, ?_⟩, removed⟩
  · simp only [erase, Option.bind_eq_bind, erasing, Option.bind_some, Option.pure_def]
  · show ProbePathsOccupied (IdealIndex hashfn erased) erased.data
    rw [IdealIndex_congr buckets]
    exact paths
  · exact wellFormed.noTwoEqual.of_cons consistent.symm removed
  · show set.num_elements - 1 = Multiset.card (contents erased.data)
    rw [wellFormed.size, ← removed, Multiset.card_cons, Nat.add_sub_cancel]

/-- Whenever `erase` of an element of a well-formed set returns, the set is
well formed: on a table without an empty slot it never returns. -/
theorem WellFormed.of_erase (consistent : Consistent hashfn pred) {set erased : HashSet α}
    (wellFormed : WellFormed hashfn pred set) {index it : Nat}
    (occupied : set.ElementForIndex index ≠ none) (erasing : erase hashfn set index = some (erased, it)) :
    WellFormed hashfn pred erased := by
  obtain ⟨held, holds⟩ := Option.ne_none_iff_exists'.mp occupied
  by_cases free : ∃ slot < set.NumBuckets, set.ElementForIndex slot = none
  · obtain ⟨erased', it', erasing', wellFormed', -⟩ := erase_spec consistent wellFormed holds free
    rw [erasing', Option.some_inj, Prod.mk.injEq] at erasing
    rw [← erasing.1]
    exact wellFormed'
  · have nonEmpty : set.NumBuckets ≠ 0 := by
      have indexLt : index < set.NumBuckets := lt_length_of_getD_eq_some holds
      omega
    have full : ∀ position < set.NumBuckets, set.ElementForIndex position ≠ none :=
      fun position positionLt empty => free ⟨position, positionLt, empty⟩
    simp only [erase, Option.bind_eq_bind, EraseFrom_full nonEmpty full, Option.bind_none] at erasing
    cases erasing

end Erase

section Run

variable {hashfn : α → Nat} {pred : α → α → Bool}

/-- A set without storage is well formed. -/
theorem WellFormed.of_data_nil {set : HashSet α} (empty : set.data = []) (zero : set.num_elements = 0) :
    WellFormed hashfn pred set := by
  refine ⟨?_, ?_, ?_⟩
  · rw [empty]
    exact ProbePathsOccupied.replicate_none 0
  · rw [empty]
    exact List.Pairwise.nil
  · rw [zero, empty]
    rfl

/-- Whenever `reserve` returns, it keeps the invariant. -/
theorem WellFormed.of_reserve (consistent : Consistent hashfn pred) {set reserved : HashSet α}
    (wellFormed : WellFormed hashfn pred set) {num_elements : Nat}
    (reserving : reserve hashfn set num_elements = some reserved) : WellFormed hashfn pred reserved := by
  simp only [reserve, Option.bind_eq_bind, Option.bind_eq_some_iff] at reserving
  obtain ⟨num_buckets, -, resizing⟩ := reserving
  split at resizing
  · exact (Resize_spec consistent wellFormed resizing).1
  · rw [Option.pure_def, Option.some_inj] at resizing
    exact resizing ▸ wellFormed

/-- Whenever `SetLoadFactor` returns, it keeps the invariant. -/
theorem WellFormed.of_SetLoadFactor (consistent : Consistent hashfn pred) {set adjusted : HashSet α}
    (wellFormed : WellFormed hashfn pred set) {min_load_factor max_load_factor : ℚ}
    (setting : SetLoadFactor hashfn set min_load_factor max_load_factor = some adjusted) :
    WellFormed hashfn pred adjusted := by
  have recorded : WellFormed hashfn pred { set with
      min_load_factor := min_load_factor
      max_load_factor := max_load_factor
      elements_until_expand := ⌊(set.NumBuckets : ℚ) * max_load_factor⌋₊ } :=
    wellFormed.of_data_eq rfl rfl
  rw [SetLoadFactor] at setting
  split at setting
  · exact (Resize_spec consistent recorded setting).1
  · rw [Option.some_inj] at setting
    exact setting ▸ recorded

/-- One call of the set's interface that changes it, under the precondition
the source states for it: `Put` is for an element "known not to be in the
`HashSet<>`", and `erase` takes an iterator to an element. -/
inductive Step (hashfn : α → Nat) (pred : α → α → Bool) : HashSet α → HashSet α → Prop
  | insert {set inserted : HashSet α} {element : α} {index : Nat} {added : Bool} :
      HashSet.insert hashfn pred set element = some (inserted, index, added) →
      Step hashfn pred set inserted
  | Put {set put : HashSet α} {element : α} :
      (∀ held ∈ contents set.data, pred held element = false) →
      HashSet.Put hashfn pred set element = some put → Step hashfn pred set put
  | erase {set erased : HashSet α} {index it : Nat} :
      set.ElementForIndex index ≠ none → HashSet.erase hashfn set index = some (erased, it) →
      Step hashfn pred set erased
  | reserve {set reserved : HashSet α} {num_elements : Nat} :
      HashSet.reserve hashfn set num_elements = some reserved → Step hashfn pred set reserved
  | ShrinkToMaximumLoad {set shrunk : HashSet α} :
      HashSet.ShrinkToMaximumLoad hashfn set = some shrunk → Step hashfn pred set shrunk
  | SetLoadFactor {set adjusted : HashSet α} {min_load_factor max_load_factor : ℚ} :
      HashSet.SetLoadFactor hashfn set min_load_factor max_load_factor = some adjusted →
      Step hashfn pred set adjusted
  | clear {set : HashSet α} : Step hashfn pred set set.clear

/-- Every call of the interface keeps the invariant. -/
theorem WellFormed.step (consistent : Consistent hashfn pred) {set next : HashSet α}
    (wellFormed : WellFormed hashfn pred set) (step : Step hashfn pred set next) :
    WellFormed hashfn pred next := by
  cases step with
  | insert inserting => exact (insert_spec consistent wellFormed inserting).1
  | Put absent putting => exact (Put_spec consistent wellFormed absent putting).1
  | erase occupied erasing => exact wellFormed.of_erase consistent occupied erasing
  | reserve reserving => exact wellFormed.of_reserve consistent reserving
  | ShrinkToMaximumLoad shrinking => exact (Resize_spec consistent wellFormed shrinking).1
  | SetLoadFactor setting => exact wellFormed.of_SetLoadFactor consistent setting
  | clear => exact WellFormed.of_data_nil rfl rfl

end Run

end ArtRuntime.Base.HashSet
