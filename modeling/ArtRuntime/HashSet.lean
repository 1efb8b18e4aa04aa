import Mathlib.Data.Rat.Floor

namespace ArtRuntime.Base

/-!
# `HashSet`: open addressing with linear probing

The model of `libartbase/base/hash_set.h`.  A slot holds `none` where the
source's `EmptyFn::IsEmpty` holds, and `some element` otherwise; the number of
buckets is the length of the slot list.  The hash function and the equality
predicate are parameters, as the source's `HashFn` and `Pred` are.

The load factors are `double`s in the source.  They are modelled as rationals,
and `static_cast<size_t>` of a non-negative `double` as `Nat.floor`: the model
computes every quotient and product exactly, where the source rounds it to the
nearest `double` before truncating.  The two agree whenever the exact value is
not within rounding distance below an integer.

Every probing loop of the source runs until it finds the slot it looks for.
The model gives each loop one probe per bucket as fuel: a probe sequence that
has visited every bucket without stopping cycles forever, so `none` is the
source's non-termination.
-/

/-- `HashSet<T>`'s state.  `num_buckets_` is `data.length`. -/
structure HashSet (α : Type) where
  data : List (Option α)
  num_elements : Nat
  elements_until_expand : Nat
  min_load_factor : ℚ
  max_load_factor : ℚ

/-- `HashSet::kMinBuckets`. -/
def kMinBuckets : Nat := 1000

namespace HashSet

variable {α : Type}

/-- The constructor `HashSet(min_load_factor, max_load_factor)`: no storage. -/
def create (min_load_factor max_load_factor : ℚ) : HashSet α where
  data := []
  num_elements := 0
  elements_until_expand := 0
  min_load_factor := min_load_factor
  max_load_factor := max_load_factor

/-- `NumBuckets()`. -/
def NumBuckets (set : HashSet α) : Nat :=
  set.data.length

/-- `ElementForIndex(index)`. -/
def ElementForIndex (set : HashSet α) (index : Nat) : Option α :=
  set.data.getD index none

/-- `IndexForHash(hash)`, guarded against an empty table. -/
def IndexForHash (set : HashSet α) (hash : Nat) : Nat :=
  if set.NumBuckets = 0 then 0 else hash % set.NumBuckets

/-- `NextIndex(index)`: the next bucket, wrapping to `0`. -/
def NextIndex (set : HashSet α) (index : Nat) : Nat :=
  if index + 1 ≥ set.NumBuckets then 0 else index + 1

/-- Store an element in a slot. -/
def SetSlot (set : HashSet α) (index : Nat) (slot : Option α) : HashSet α :=
  { set with data := set.data.set index slot }

section Operations

variable (hashfn : α → Nat) (pred : α → α → Bool)

/--
`FindIndexImpl<kCanFind>(element, hash, fail_fn)` from bucket `index` with
`fuel` probes left: `some (index, true)` when the probe stops at an empty slot
(the `fail_fn` branch), `some (index, false)` at a slot `pred` identifies with
the element.
-/
def ProbeFrom (set : HashSet α) (kCanFind : Bool) (element : α) :
    Nat → Nat → Option (Nat × Bool)
  | 0, _ => none
  | fuel + 1, index =>
      match set.ElementForIndex index with
      | none => some (index, true)
      | some slot =>
          if kCanFind && pred slot element then some (index, false)
          else ProbeFrom set kCanFind element fuel (set.NextIndex index)

/-- `FindIndexImpl<kCanFind>(element, hash, fail_fn)`. -/
def FindIndexImpl (set : HashSet α) (kCanFind : Bool) (element : α) (hash : Nat) :
    Option (Nat × Bool) :=
  ProbeFrom pred set kCanFind element set.NumBuckets (set.IndexForHash hash)

/-- `FindIndex(element, hash)`: the slot of an equal element, or
`NumBuckets()` when there is none. -/
def FindIndex (set : HashSet α) (element : α) (hash : Nat) : Option Nat :=
  if set.NumBuckets = 0 then
    some 0
  else
    (FindIndexImpl pred set true element hash).map fun found =>
      if found.2 then set.NumBuckets else found.1

/-- `find(key)`: the iterator index, `NumBuckets()` being `end()`. -/
def find (set : HashSet α) (key : α) : Option Nat :=
  FindIndex pred set key (hashfn key)

/-- `FirstAvailableSlot(index)` with `fuel` probes left. -/
def FirstAvailableSlotFrom (set : HashSet α) : Nat → Nat → Option Nat
  | 0, _ => none
  | fuel + 1, index =>
      match set.ElementForIndex index with
      | none => some index
      | some _ => FirstAvailableSlotFrom set fuel (set.NextIndex index)

/-- `FirstAvailableSlot(index)`. -/
def FirstAvailableSlot (set : HashSet α) (index : Nat) : Option Nat :=
  set.FirstAvailableSlotFrom set.NumBuckets index

/-- One iteration of the reinsertion loop of `Resize`. -/
def ReinsertSlot (set : HashSet α) : Option α → Option (HashSet α)
  | none => some set
  | some element =>
      (set.FirstAvailableSlot (set.IndexForHash (hashfn element))).map fun index =>
        set.SetSlot index (some element)

/-- `Resize(new_size)`: allocate `max(new_size, kMinBuckets)` empty buckets,
reinsert every element of the old storage in bucket order, and set
`elements_until_expand_` from the maximum load factor. -/
def Resize (set : HashSet α) (new_size : Nat) : Option (HashSet α) := do
  let new_size := if new_size < kMinBuckets then kMinBuckets else new_size
  let fresh : HashSet α := { set with data := List.replicate new_size none }
  let reinserted ← set.data.foldlM (ReinsertSlot hashfn) fresh
  pure { reinserted with
    elements_until_expand := ⌊(reinserted.NumBuckets : ℚ) * set.max_load_factor⌋₊ }

/-- `Expand()`: resize for the minimum load factor. -/
def Expand (set : HashSet α) : Option (HashSet α) :=
  Resize hashfn set ⌊(set.num_elements : ℚ) / set.min_load_factor⌋₊

/-- The expansion test that `InsertWithHash` and `PutWithHash` share. -/
def ExpandIfFull (set : HashSet α) : Option (HashSet α) :=
  if set.num_elements ≥ set.elements_until_expand then Expand hashfn set else some set

/-- `InsertWithHash(element, hash)`: the new set, the iterator index and
whether the element was inserted. -/
def InsertWithHash (set : HashSet α) (element : α) (hash : Nat) :
    Option (HashSet α × Nat × Bool) := do
  let set ← ExpandIfFull hashfn set
  let (index, find_failed) ← FindIndexImpl pred set true element hash
  if find_failed then
    pure ({ set.SetSlot index (some element) with num_elements := set.num_elements + 1 },
      index, true)
  else
    pure (set, index, false)

/-- `insert(element)`. -/
def insert (set : HashSet α) (element : α) : Option (HashSet α × Nat × Bool) :=
  InsertWithHash hashfn pred set element (hashfn element)

/-- `PutWithHash(element, hash)` for an element known to be absent. -/
def PutWithHash (set : HashSet α) (element : α) (hash : Nat) : Option (HashSet α) := do
  let set ← ExpandIfFull hashfn set
  let (index, _) ← FindIndexImpl pred set false element hash
  pure { set.SetSlot index (some element) with num_elements := set.num_elements + 1 }

/-- `Put(element)`. -/
def Put (set : HashSet α) (element : α) : Option (HashSet α) :=
  PutWithHash hashfn pred set element (hashfn element)

/-- `NextNonEmptySlot(index)` with `fuel` steps left. -/
def NextNonEmptySlotFrom (set : HashSet α) : Nat → Nat → Nat
  | 0, index => index
  | fuel + 1, index =>
      if index + 1 < set.NumBuckets ∧ set.ElementForIndex (index + 1) = none then
        NextNonEmptySlotFrom set fuel (index + 1)
      else
        index + 1

/-- `NextNonEmptySlot(index)`: the iterator's `operator++`. -/
def NextNonEmptySlot (set : HashSet α) (index : Nat) : Nat :=
  set.NextNonEmptySlotFrom set.NumBuckets index

/--
The loop of `erase`: `empty_index` is the slot that will become empty,
`next_index` the last slot scanned.  An element whose ideal index is not
cyclically in `(empty_index, next_index]` was probed from before the hole,
so it moves into the hole and its old slot becomes the hole.
-/
def EraseFrom (set : HashSet α) :
    Nat → Nat → Nat → Bool → Option (HashSet α × Bool)
  | 0, _, _, _ => none
  | fuel + 1, empty_index, next_index, filled =>
      let next_index := set.NextIndex next_index
      match set.ElementForIndex next_index with
      | none => some (set.SetSlot empty_index none, filled)
      | some next_element =>
          let next_ideal_index := set.IndexForHash (hashfn next_element)
          let unwrapped_next_index :=
            if next_index < empty_index then next_index + set.NumBuckets else next_index
          let unwrapped_next_ideal_index :=
            if next_ideal_index < empty_index then next_ideal_index + set.NumBuckets
            else next_ideal_index
          if unwrapped_next_ideal_index ≤ empty_index ∨
              unwrapped_next_ideal_index > unwrapped_next_index then
            EraseFrom (set.SetSlot empty_index (some next_element)) fuel next_index next_index true
          else
            EraseFrom set fuel empty_index next_index filled

/-- `erase(it)` at iterator index `index`: the new set and the returned
iterator index. -/
def erase (set : HashSet α) (index : Nat) : Option (HashSet α × Nat) := do
  let (erased, filled) ← EraseFrom hashfn set set.NumBuckets index index false
  let erased := { erased with num_elements := set.num_elements - 1 }
  pure (erased, if filled then index else erased.NextNonEmptySlot index)

/-- `ShrinkToMaximumLoad()`. -/
def ShrinkToMaximumLoad (set : HashSet α) : Option (HashSet α) :=
  Resize hashfn set ⌊(set.num_elements : ℚ) / set.max_load_factor⌋₊

/-- The loop of `reserve`: the smallest bucket count from `num_buckets` up
whose maximum load exceeds `num_elements + 1`. -/
def ReserveBuckets (max_load_factor : ℚ) (num_elements : Nat) : Nat → Nat → Option Nat
  | 0, _ => none
  | fuel + 1, num_buckets =>
      if ⌊(num_buckets : ℚ) * max_load_factor⌋₊ ≤ num_elements + 1 then
        ReserveBuckets max_load_factor num_elements fuel (num_buckets + 1)
      else
        some num_buckets

/-- `reserve(num_elements)`.  The loop needs at most
`⌈(num_elements + 2) / max_load_factor⌉ + 1` iterations. -/
def reserve (set : HashSet α) (num_elements : Nat) : Option (HashSet α) := do
  let num_buckets ← ReserveBuckets set.max_load_factor num_elements
    (⌈((num_elements + 2 : Nat) : ℚ) / set.max_load_factor⌉₊ + 1)
    ⌊(num_elements : ℚ) / set.max_load_factor⌋₊
  if num_buckets > set.NumBuckets then Resize hashfn set num_buckets else pure set

/-- `SetLoadFactor(min_load_factor, max_load_factor)`. -/
def SetLoadFactor (set : HashSet α) (min_load_factor max_load_factor : ℚ) :
    Option (HashSet α) :=
  let set := { set with
    min_load_factor := min_load_factor
    max_load_factor := max_load_factor
    elements_until_expand := ⌊(set.NumBuckets : ℚ) * max_load_factor⌋₊ }
  let load_factor : ℚ := (set.num_elements : ℚ) / set.NumBuckets
  if load_factor > max_load_factor then
    Resize hashfn set ⌊(set.num_elements : ℚ) / ((min_load_factor + max_load_factor) * (1 / 2))⌋₊
  else
    some set

/-- `clear()`: release the storage. -/
def clear (set : HashSet α) : HashSet α :=
  { set with data := [], num_elements := 0, elements_until_expand := 0 }

/-- A caller's loop that calls `insert` on each element in turn. -/
def InsertAll (set : HashSet α) (elements : List α) : Option (HashSet α) :=
  elements.foldlM (fun set element => (insert hashfn pred set element).map Prod.fst) set

end Operations

/-- A set with buckets hashes every value to one of them. -/
theorem IndexForHash_lt
    {set : HashSet α}
    (nonEmpty : set.NumBuckets ≠ 0)
    (hash : Nat) :
    set.IndexForHash hash < set.NumBuckets := by
  rw [IndexForHash, if_neg nonEmpty]
  exact Nat.mod_lt hash (Nat.pos_of_ne_zero nonEmpty)

/-- One more element at the end of the loop is one more `insert`. -/
theorem InsertAll_append_singleton
    {hashfn : α → Nat}
    {pred : α → α → Bool}
    {set : HashSet α}
    {elements : List α}
    {element : α} :
    InsertAll hashfn pred set (elements ++ [element]) =
      (InsertAll hashfn pred set elements).bind fun set =>
        (insert hashfn pred set element).map Prod.fst := by
  rw [InsertAll, List.foldlM_append, InsertAll]
  simp only [List.foldlM_cons, List.foldlM_nil, bind_pure]
  rfl

end HashSet

end ArtRuntime.Base
