import ArtRuntime.FixedWidth
import ArtRuntime.BitMemoryStream
import ArtRuntime.Search.FirstFit

namespace ArtRuntime.Gc

/-!
# Large objects in the region space

`RegionSpace::AllocLarge` places an object larger than a region in a run of
free regions: the first region of the run becomes `kRegionStateLarge`, the
others `kRegionStateLargeTail`.  With `kCyclicRegionAllocation` (debug
builds) the search starts at `cyclic_alloc_region_index_` and then tries the
windows before it; otherwise it starts at region 0.  `RegionSpace::FreeLarge`
walks the run by address and clears its regions.

The region array `regions_` is a function from indices to `Region` records,
with `num_regions_` beside it.  Of a region the model keeps the fields these
functions read or write; `end_` and the memory a region maps are left out,
and so is `TraceHeapSize()`, which only reports.  The region counters are
counts of regions and are kept as `Nat`; the `size_t` sums that can wrap, in
`RoundUp(num_bytes, kRegionSize)` and in the loop bounds built from it, are
reduced with `truncU64`.
-/

open FixedWidth

def kRegionSize : Nat := 256 * 1024

inductive RegionType where
  | kRegionTypeAll
  | kRegionTypeFromSpace
  | kRegionTypeUnevacFromSpace
  | kRegionTypeToSpace
  | kRegionTypeNone
  deriving Repr, DecidableEq

inductive RegionState where
  | kRegionStateFree
  | kRegionStateAllocated
  | kRegionStateLarge
  | kRegionStateLargeTail
  deriving Repr, DecidableEq

/-- `RegionSpace::Region`. -/
structure Region where
  idx : Nat
  begin : Nat
  top : Nat
  objects_allocated : Nat
  alloc_time : Nat
  live_bytes : Nat
  is_newly_allocated : Bool
  is_a_tlab : Bool
  /-- `thread_`, `none` for `nullptr`. -/
  thread : Option Nat
  state : RegionState
  type : RegionType
  deriving Repr, DecidableEq

namespace Region

def IsFree (r : Region) : Bool :=
  r.state == .kRegionStateFree

def IsLarge (r : Region) : Bool :=
  r.state == .kRegionStateLarge

def IsLargeTail (r : Region) : Bool :=
  r.state == .kRegionStateLargeTail

def SetTop (r : Region) (new_top : Nat) : Region :=
  { r with top := new_top }

def SetNewlyAllocated (r : Region) : Region :=
  { r with is_newly_allocated := true }

/-- `Region::Clear(zero_and_release_pages)`; zeroing and releasing the pages
changes no field. -/
def Clear (r : Region) : Region :=
  { r with
    top := r.begin
    state := .kRegionStateFree
    type := .kRegionTypeNone
    objects_allocated := 0
    alloc_time := 0
    live_bytes := 2 ^ 64 - 1
    is_newly_allocated := false
    is_a_tlab := false
    thread := none }

end Region

/-- The fields of `RegionSpace` that large allocation reads and writes. -/
structure RegionSpace where
  /-- `Begin()`, the start of the space's memory map. -/
  begin : Nat
  num_regions : Nat
  regions : Nat → Region
  time : Nat
  num_non_free_regions : Nat
  num_evac_regions : Nat
  non_free_region_index_limit : Nat
  cyclic_alloc_region_index : Nat

/-- What a large allocation returns: the object, `*bytes_allocated` (also
`*usable_size` and `*bytes_tl_bulk_allocated`) and `*next_region`. -/
structure LargeAllocation where
  obj : Nat
  bytes_allocated : Nat
  next_region : Nat
  deriving Repr, DecidableEq

namespace RegionSpace

/-- Store region `i`. -/
def setRegion (s : RegionSpace) (i : Nat) (r : Region) : RegionSpace :=
  { s with regions := Function.update s.regions i r }

/-- `AdjustNonFreeRegionLimit(new_non_free_region_index)`. -/
def AdjustNonFreeRegionLimit (s : RegionSpace) (new_non_free_region_index : Nat) :
    RegionSpace :=
  { s with
    non_free_region_index_limit :=
      max s.non_free_region_index_limit (new_non_free_region_index + 1) }

/-- `regions_[i].MarkAsAllocated(this, alloc_time)`. -/
def MarkAsAllocated (s : RegionSpace) (i alloc_time : Nat) : RegionSpace :=
  let r := s.regions i
  (s.AdjustNonFreeRegionLimit r.idx).setRegion i
    { r with alloc_time := alloc_time, type := .kRegionTypeToSpace }

/-- `regions_[i].UnfreeLarge(this, alloc_time)`. -/
def UnfreeLarge (s : RegionSpace) (i alloc_time : Nat) : RegionSpace :=
  let s := s.MarkAsAllocated i alloc_time
  s.setRegion i { s.regions i with state := .kRegionStateLarge }

/-- `regions_[i].UnfreeLargeTail(this, alloc_time)`. -/
def UnfreeLargeTail (s : RegionSpace) (i alloc_time : Nat) : RegionSpace :=
  let s := s.MarkAsAllocated i alloc_time
  s.setRegion i { s.regions i with state := .kRegionStateLargeTail }

/-- `++num_evac_regions_` or `++num_non_free_regions_`. -/
def CountAllocated (kForEvac : Bool) (s : RegionSpace) : RegionSpace :=
  if kForEvac then { s with num_evac_regions := s.num_evac_regions + 1 }
  else { s with num_non_free_regions := s.num_non_free_regions + 1 }

/-- `--num_evac_regions_` or `--num_non_free_regions_`. -/
def CountFreed (kForEvac : Bool) (s : RegionSpace) : RegionSpace :=
  if kForEvac then { s with num_evac_regions := s.num_evac_regions - 1 }
  else { s with num_non_free_regions := s.num_non_free_regions - 1 }

/-- `regions_[i].IsFree()`. -/
def RegionFree (s : RegionSpace) (i : Nat) : Bool :=
  (s.regions i).IsFree

/-- The loop of `AllocLargeInRange` over the tail regions `[p, right)` of a
run, `remaining` of them. -/
def UnfreeLargeTails (kForEvac : Bool) : RegionSpace → (p remaining : Nat) → RegionSpace
  | s, _, 0 => s
  | s, p, remaining + 1 =>
      let s := (s.UnfreeLargeTail p s.time).CountAllocated kForEvac
      -- Evac doesn't count as newly allocated.
      let s := if kForEvac then s else s.setRegion p (s.regions p).SetNewlyAllocated
      UnfreeLargeTails kForEvac s (p + 1) remaining

/-- The branch of `AllocLargeInRange` that found the run `[left, right)`
free: its regions become one large region and its tails. -/
def AllocLargeRun (kForEvac : Bool) (s : RegionSpace) (left num_regs_in_large_region : Nat) :
    LargeAllocation × RegionSpace :=
  let right := left + num_regs_in_large_region
  let s := (s.UnfreeLarge left s.time).CountAllocated kForEvac
  let allocated := num_regs_in_large_region * kRegionSize
  -- We make 'top' all usable bytes.
  let s := s.setRegion left ((s.regions left).SetTop ((s.regions left).begin + allocated))
  let s := if kForEvac then s else s.setRegion left (s.regions left).SetNewlyAllocated
  let s := UnfreeLargeTails kForEvac s (left + 1) (right - (left + 1))
  (⟨(s.regions left).begin, allocated, right⟩, s)

/-- The outer loop of `AllocLargeInRange` from `left`.  The inner loop finds
the first region of the window that is not free; the fuel bounds the
iterations. -/
def AllocLargeInRangeLoop (kForEvac : Bool) (end_ num_regs_in_large_region : Nat) :
    (fuel left : Nat) → RegionSpace → Option LargeAllocation × RegionSpace
  | 0, _, s => (none, s)
  | fuel + 1, left, s =>
      if truncU64 ((left + num_regs_in_large_region : Nat) - 1) < end_ then
        match Search.firstBlocked s.RegionFree left num_regs_in_large_region with
        | none =>
            let (allocation, s) := s.AllocLargeRun kForEvac left num_regs_in_large_region
            (some allocation, s)
        | some right =>
            -- `right` points to the non-free region. Start with the one after it.
            AllocLargeInRangeLoop kForEvac end_ num_regs_in_large_region fuel (right + 1) s
      else
        (none, s)

/-- `AllocLargeInRange<kForEvac>(begin, end, num_regs_in_large_region, ...)`.
Every iteration moves `left` forward, so `end + 1` rounds are enough. -/
def AllocLargeInRange (kForEvac : Bool) (s : RegionSpace) (begin end_ num_regs_in_large_region : Nat) :
    Option LargeAllocation × RegionSpace :=
  AllocLargeInRangeLoop kForEvac end_ num_regs_in_large_region (end_ + 1) begin s

/-- `RoundUp(num_bytes, kRegionSize) / kRegionSize` in `size_t`. -/
def NumRegsInLargeRegion (num_bytes : Nat) : Nat :=
  Base.RoundDown (truncU64 (num_bytes + kRegionSize - 1)) kRegionSize / kRegionSize

/-- The branch of `AllocLarge` under `kCyclicRegionAllocation`: search from
the cursor, then the windows before it, and move the cursor past the run
found. -/
def AllocLargeCyclic (kForEvac : Bool) (s : RegionSpace) (num_regs_in_large_region : Nat) :
    Option LargeAllocation × RegionSpace :=
  let first := s.AllocLargeInRange kForEvac s.cyclic_alloc_region_index s.num_regions
    num_regs_in_large_region
  let found := match first.1 with
    | some _ => first
    | none =>
        first.2.AllocLargeInRange kForEvac 0
          (min (truncU64 ((s.cyclic_alloc_region_index + num_regs_in_large_region : Nat) - 1))
            s.num_regions)
          num_regs_in_large_region
  match found.1 with
  | some allocation =>
      -- Move the cyclic allocation region marker past the large region.
      (some allocation,
        { found.2 with cyclic_alloc_region_index := allocation.next_region % s.num_regions })
  | none => (none, found.2)

/-- `AllocLarge<kForEvac>(num_bytes, ...)`, for the build's
`kCyclicRegionAllocation`. -/
def AllocLarge (kCyclicRegionAllocation kForEvac : Bool) (s : RegionSpace) (num_bytes : Nat) :
    Option LargeAllocation × RegionSpace :=
  let num_regs_in_large_region := NumRegsInLargeRegion num_bytes
  -- Retain sufficient free regions for full evacuation.
  if !kForEvac ∧ (s.num_non_free_regions + num_regs_in_large_region) * 2 > s.num_regions then
    (none, s)
  else if kCyclicRegionAllocation then
    s.AllocLargeCyclic kForEvac num_regs_in_large_region
  else
    s.AllocLargeInRange kForEvac 0 s.num_regions num_regs_in_large_region

/-- `RefToRegionLocked(ref)`: the index of the region that holds `ref`. -/
def RefToRegionIndex (s : RegionSpace) (ref : Nat) : Nat :=
  (ref - s.begin) / kRegionSize

/-- The loop of `FreeLarge` from `addr`, one region per step. -/
def FreeLargeLoop (kForEvac : Bool) (end_addr : Nat) :
    (fuel addr : Nat) → RegionSpace → RegionSpace
  | 0, _, s => s
  | fuel + 1, addr, s =>
      if addr < end_addr then
        let reg := s.RefToRegionIndex addr
        let s := (s.setRegion reg (s.regions reg).Clear).CountFreed kForEvac
        FreeLargeLoop kForEvac end_addr fuel (addr + kRegionSize) s
      else
        s

/-- `FreeLarge<kForEvac>(large_obj, bytes_allocated)`, or `none` when its
`CHECK_LT(begin_addr, end_addr)` fails.  Each step advances by a whole
region, so `end_addr - begin_addr` rounds are enough. -/
def FreeLarge (kForEvac : Bool) (s : RegionSpace) (large_obj bytes_allocated : Nat) :
    Option RegionSpace :=
  let begin_addr := large_obj
  let end_addr := Base.RoundUp (large_obj + bytes_allocated) kRegionSize
  if begin_addr < end_addr then
    some (FreeLargeLoop kForEvac end_addr (end_addr - begin_addr) begin_addr s)
  else
    none

end RegionSpace

/-! ## The primitives, field by field -/

namespace RegionSpace

variable (s : RegionSpace)

@[simp] theorem setRegion_regions (i : Nat) (r : Region) :
    (s.setRegion i r).regions = Function.update s.regions i r := rfl

@[simp] theorem MarkAsAllocated_regions (i alloc_time : Nat) :
    (s.MarkAsAllocated i alloc_time).regions =
      Function.update s.regions i
        { s.regions i with alloc_time := alloc_time, type := .kRegionTypeToSpace } := rfl

@[simp] theorem UnfreeLarge_regions (i alloc_time : Nat) :
    (s.UnfreeLarge i alloc_time).regions =
      Function.update s.regions i
        { s.regions i with
          alloc_time := alloc_time, type := .kRegionTypeToSpace, state := .kRegionStateLarge } := by
  simp only [UnfreeLarge, setRegion_regions, MarkAsAllocated_regions, Function.update_self,
    Function.update_idem]

@[simp] theorem UnfreeLargeTail_regions (i alloc_time : Nat) :
    (s.UnfreeLargeTail i alloc_time).regions =
      Function.update s.regions i
        { s.regions i with
          alloc_time := alloc_time, type := .kRegionTypeToSpace,
          state := .kRegionStateLargeTail } := by
  simp only [UnfreeLargeTail, setRegion_regions, MarkAsAllocated_regions, Function.update_self,
    Function.update_idem]

@[simp] theorem CountAllocated_regions (kForEvac : Bool) :
    (s.CountAllocated kForEvac).regions = s.regions := by
  cases kForEvac <;> rfl

@[simp] theorem CountFreed_regions (kForEvac : Bool) :
    (s.CountFreed kForEvac).regions = s.regions := by
  cases kForEvac <;> rfl

end RegionSpace

/-! ## A large run, region by region -/

namespace Region

/-- The first region of a large run once `AllocLargeInRange` has set it up:
`UnfreeLarge`, `SetTop` past the whole run, and outside evacuation
`SetNewlyAllocated`. -/
def AsLarge (kForEvac : Bool) (alloc_time allocated : Nat) (r : Region) : Region :=
  { r with
    alloc_time := alloc_time
    type := .kRegionTypeToSpace
    state := .kRegionStateLarge
    top := r.begin + allocated
    is_newly_allocated := !kForEvac || r.is_newly_allocated }

/-- A later region of a large run: `UnfreeLargeTail`, and outside evacuation
`SetNewlyAllocated`. -/
def AsLargeTail (kForEvac : Bool) (alloc_time : Nat) (r : Region) : Region :=
  { r with
    alloc_time := alloc_time
    type := .kRegionTypeToSpace
    state := .kRegionStateLargeTail
    is_newly_allocated := !kForEvac || r.is_newly_allocated }

/-- `Clear` keeps only a region's place: a region changed in any other field
clears to the same region. -/
theorem Clear_AsLarge (kForEvac : Bool) (alloc_time allocated : Nat) (r : Region) :
    (r.AsLarge kForEvac alloc_time allocated).Clear = r.Clear := rfl

theorem Clear_AsLargeTail (kForEvac : Bool) (alloc_time : Nat) (r : Region) :
    (r.AsLargeTail kForEvac alloc_time).Clear = r.Clear := rfl

theorem IsFree_Clear (r : Region) : r.Clear.IsFree = true := rfl

end Region

namespace RegionSpace

/-- One step of the tail loop is the tail region's update and one count. -/
theorem UnfreeLargeTails_succ (kForEvac : Bool) (s : RegionSpace) (p remaining : Nat) :
    UnfreeLargeTails kForEvac s p (remaining + 1) =
      UnfreeLargeTails kForEvac
        ({ s with regions := Function.update s.regions p ((s.regions p).AsLargeTail kForEvac s.time)
                  non_free_region_index_limit :=
                    max s.non_free_region_index_limit ((s.regions p).idx + 1) }.CountAllocated
          kForEvac)
        (p + 1) remaining := by
  rw [UnfreeLargeTails]
  cases kForEvac
  · -- outside evacuation the tail is also marked newly allocated
    simp only [UnfreeLargeTail, MarkAsAllocated, AdjustNonFreeRegionLimit, setRegion,
      CountAllocated, Bool.false_eq_true, if_false, Function.update_self, Function.update_idem]
    rfl
  · simp only [UnfreeLargeTail, MarkAsAllocated, AdjustNonFreeRegionLimit, setRegion,
      CountAllocated, if_true, Function.update_self, Function.update_idem]
    rfl

/-- The tail loop changes the regions `[p, p + remaining)` and nothing else
of the array. -/
theorem UnfreeLargeTails_regions (kForEvac : Bool) :
    ∀ (s : RegionSpace) (p remaining i : Nat),
      (UnfreeLargeTails kForEvac s p remaining).regions i =
        if p ≤ i ∧ i < p + remaining then (s.regions i).AsLargeTail kForEvac s.time
        else s.regions i
  | s, p, 0, i => by
    rw [UnfreeLargeTails, if_neg (by omega)]
  | s, p, remaining + 1, i => by
    rw [UnfreeLargeTails_succ, UnfreeLargeTails_regions]
    cases kForEvac <;>
    · simp only [CountAllocated, Bool.false_eq_true, if_true, if_false]
      by_cases atP : i = p
      · subst atP
        rw [if_neg (by omega), if_pos (by omega), Function.update_self]
      · rw [Function.update_of_ne atP]
        by_cases inside : p + 1 ≤ i ∧ i < p + 1 + remaining
        · rw [if_pos inside, if_pos (by omega)]
        · rw [if_neg inside, if_neg (by omega)]

/-- The tail loop counts each tail once. -/
theorem UnfreeLargeTails_counts (kForEvac : Bool) :
    ∀ (s : RegionSpace) (p remaining : Nat),
      (UnfreeLargeTails kForEvac s p remaining).num_non_free_regions =
          (if kForEvac then s.num_non_free_regions else s.num_non_free_regions + remaining) ∧
        (UnfreeLargeTails kForEvac s p remaining).num_evac_regions =
          (if kForEvac then s.num_evac_regions + remaining else s.num_evac_regions)
  | s, p, 0 => by cases kForEvac <;> exact ⟨rfl, rfl⟩
  | s, p, remaining + 1 => by
    rw [UnfreeLargeTails_succ]
    obtain ⟨nonFree, evac⟩ := UnfreeLargeTails_counts kForEvac
      ({ s with regions := Function.update s.regions p ((s.regions p).AsLargeTail kForEvac s.time)
                non_free_region_index_limit :=
                  max s.non_free_region_index_limit ((s.regions p).idx + 1) }.CountAllocated
        kForEvac) (p + 1) remaining
    rw [nonFree, evac]
    cases kForEvac
    · exact ⟨by simp only [CountAllocated, Bool.false_eq_true, if_false]; omega, rfl⟩
    · exact ⟨rfl, by simp only [CountAllocated, if_true]; omega⟩

/-- The tail loop leaves the space's place, size, time and cursor. -/
theorem UnfreeLargeTails_frame (kForEvac : Bool) :
    ∀ (s : RegionSpace) (p remaining : Nat),
      (UnfreeLargeTails kForEvac s p remaining).begin = s.begin ∧
        (UnfreeLargeTails kForEvac s p remaining).num_regions = s.num_regions ∧
        (UnfreeLargeTails kForEvac s p remaining).time = s.time ∧
        (UnfreeLargeTails kForEvac s p remaining).cyclic_alloc_region_index =
          s.cyclic_alloc_region_index
  | s, p, 0 => ⟨rfl, rfl, rfl, rfl⟩
  | s, p, remaining + 1 => by
    rw [UnfreeLargeTails_succ]
    have rest := UnfreeLargeTails_frame kForEvac
      ({ s with regions := Function.update s.regions p ((s.regions p).AsLargeTail kForEvac s.time)
                non_free_region_index_limit :=
                  max s.non_free_region_index_limit ((s.regions p).idx + 1) }.CountAllocated
        kForEvac) (p + 1) remaining
    cases kForEvac <;> exact rest

end RegionSpace

namespace RegionSpace

/-- The run's first region and its count, before the tail loop. -/
theorem AllocLargeRun_eq (kForEvac : Bool) (s : RegionSpace) (left count : Nat) :
    s.AllocLargeRun kForEvac left count =
      (⟨(s.regions left).begin, count * kRegionSize, left + count⟩,
        UnfreeLargeTails kForEvac
          ({ s with
              regions := Function.update s.regions left
                ((s.regions left).AsLarge kForEvac s.time (count * kRegionSize))
              non_free_region_index_limit :=
                max s.non_free_region_index_limit ((s.regions left).idx + 1) }.CountAllocated
            kForEvac)
          (left + 1) (left + count - (left + 1))) := by
  unfold AllocLargeRun
  cases kForEvac
  · simp only [UnfreeLarge, MarkAsAllocated, AdjustNonFreeRegionLimit, setRegion, CountAllocated,
      Bool.false_eq_true, if_false, Function.update_self, Function.update_idem]
    -- the tail loop leaves the first region, so the object is its start
    rw [UnfreeLargeTails_regions, if_neg (by omega)]
    simp only [Function.update_self]
    -- unfolded, the two regions compare field by field; left folded, the
    -- kernel would unfold the run's size `count * kRegionSize` instead
    unfold Region.AsLarge Region.SetNewlyAllocated Region.SetTop
    rfl
  · simp only [UnfreeLarge, MarkAsAllocated, AdjustNonFreeRegionLimit, setRegion, CountAllocated,
      if_true, Function.update_self, Function.update_idem]
    rw [UnfreeLargeTails_regions, if_neg (by omega)]
    simp only [Function.update_self]
    unfold Region.AsLarge Region.SetTop
    rfl

end RegionSpace

/-! ## The search -/

namespace RegionSpace

/-- What `AllocLargeInRange` does once its search has ended: allocate the
run at the start it found, or nothing. -/
def AllocLargeAt (kForEvac : Bool) (s : RegionSpace) (count : Nat) :
    Option Nat → Option LargeAllocation × RegionSpace
  | some left => (some (s.AllocLargeRun kForEvac left count).1, (s.AllocLargeRun kForEvac left count).2)
  | none => (none, s)

/-- The outer loop of `AllocLargeInRange` is a first-fit search: it
allocates the first free window from `left`.  The induction is on the fuel;
a blocked region moves the search past it (`firstWindow_skip`), which keeps
`left` within one past `end_`. -/
theorem AllocLargeInRangeLoop_eq (kForEvac : Bool) (s : RegionSpace) {end_ count : Nat}
    (nonempty : 0 < count) (noWrap : end_ + count < 2 ^ 64) :
    ∀ {fuel left : Nat}, left ≤ end_ + 1 → end_ < fuel + left →
      AllocLargeInRangeLoop kForEvac end_ count fuel left s =
        s.AllocLargeAt kForEvac count (Search.firstWindow s.RegionFree count left end_)
  | 0, left, _, enough => by
    rw [AllocLargeInRangeLoop, Search.firstWindow_of_lt (by omega)]
    rfl
  | fuel + 1, left, start, enough => by
    have bound : (truncU64 (((left + count : Nat) : Int) - 1) : Int) = left + count - 1 :=
      truncU64_of_lt (by omega) (by omega)
    rw [AllocLargeInRangeLoop]
    by_cases inRange : left + count - 1 < end_
    · rw [if_pos (by omega)]
      cases blocked : Search.firstBlocked s.RegionFree left count with
      | none =>
        rw [Search.firstWindow_of_windowFree (by omega)
          (Search.firstBlocked_eq_none_iff.mp blocked)]
        rfl
      | some right =>
        have blockedAt := Search.firstBlocked_eq_some blocked
        dsimp only
        rw [Search.firstWindow_skip blocked,
          AllocLargeInRangeLoop_eq kForEvac s nonempty noWrap (by omega) (by omega)]
    · rw [if_neg (by omega), Search.firstWindow_of_lt (by omega)]
      rfl

theorem AllocLargeInRange_eq (kForEvac : Bool) (s : RegionSpace) {begin end_ count : Nat}
    (nonempty : 0 < count) (start : begin ≤ end_ + 1) (noWrap : end_ + count < 2 ^ 64) :
    s.AllocLargeInRange kForEvac begin end_ count =
      s.AllocLargeAt kForEvac count (Search.firstWindow s.RegionFree count begin end_) :=
  AllocLargeInRangeLoop_eq kForEvac s nonempty noWrap start (by omega)

/-- Without wrap-around, `RoundUp(num_bytes, kRegionSize) / kRegionSize` is
the number of regions the object needs. -/
theorem NumRegsInLargeRegion_eq {num_bytes : Nat}
    (noWrap : num_bytes + kRegionSize - 1 < 2 ^ 64) :
    NumRegsInLargeRegion num_bytes = (num_bytes + kRegionSize - 1) / kRegionSize := by
  have regionSize : kRegionSize = 262144 := rfl
  have exact : (truncU64 ((num_bytes : Int) + kRegionSize - 1) : Int) =
      ((num_bytes + kRegionSize - 1 : Nat) : Int) := by
    rw [truncU64_of_lt (by omega) (by omega)]
    omega
  have rounded : Base.RoundDown (num_bytes + kRegionSize - 1) kRegionSize =
      kRegionSize * ((num_bytes + kRegionSize - 1) / kRegionSize) := by
    have split := Nat.div_add_mod (num_bytes + kRegionSize - 1) kRegionSize
    unfold Base.RoundDown
    omega
  unfold NumRegsInLargeRegion
  rw [show truncU64 ((num_bytes : Int) + kRegionSize - 1) = num_bytes + kRegionSize - 1 by omega,
    rounded, Nat.mul_div_cancel_left _ (by omega)]

end RegionSpace

/-! ## What `AllocLarge` allocates -/

/-- The starts of the windows of `count` regions, in the order `AllocLarge`
tries them: with the cyclic search, from the cursor to the last window and
then from region 0 up to the cursor; otherwise from region 0. -/
def LargeRunStarts (kCyclicRegionAllocation : Bool) (cyclic num_regions count : Nat) :
    List Nat :=
  if kCyclicRegionAllocation then
    List.range' cyclic (num_regions + 1 - (cyclic + count)) ++
      List.range' 0 (min cyclic (num_regions + 1 - count))
  else
    List.range' 0 (num_regions + 1 - count)

namespace RegionSpace

/-- The first window of `count` free regions in that order. -/
def LargeRunStart (kCyclicRegionAllocation : Bool) (s : RegionSpace) (count : Nat) :
    Option Nat :=
  (LargeRunStarts kCyclicRegionAllocation s.cyclic_alloc_region_index s.num_regions count).find?
    fun start => Search.windowFree s.RegionFree start count

/-- What `RegionSpace`'s constructor establishes and large allocation keeps:
the memory map is region-aligned (`CHECK_ALIGNED(mem_map_.Begin(), kRegionSize)`)
and lies in the address space, and region `i` starts `i` regions into it
(`regions_[i].Init(i, region_addr, ...)`). -/
structure Layout (s : RegionSpace) : Prop where
  aligned : s.begin % kRegionSize = 0
  mapped : s.begin + s.num_regions * kRegionSize ≤ 2 ^ 64
  regionBegin : ∀ i < s.num_regions, (s.regions i).begin = s.begin + i * kRegionSize

/-- A mapped space has at most `2 ^ 46` regions, so no sum of region indices
the search forms wraps. -/
theorem Layout.num_regions_le {s : RegionSpace} (layout : s.Layout) : s.num_regions ≤ 2 ^ 46 := by
  have fits := layout.mapped
  rw [show kRegionSize = 262144 from rfl] at fits
  omega

/-- The cyclic search is the first-fit search of its two ranges, one after the
other; the second range, `[0, min(cursor + count - 1, num_regions))`, holds
the windows that start before the cursor. -/
theorem LargeRunStart_cyclic (s : RegionSpace) {count : Nat} (nonempty : 0 < count) :
    s.LargeRunStart true count =
      (Search.firstWindow s.RegionFree count s.cyclic_alloc_region_index s.num_regions).or
        (Search.firstWindow s.RegionFree count 0
          (min (s.cyclic_alloc_region_index + count - 1) s.num_regions)) := by
  rw [Search.firstWindow_or, LargeRunStart, LargeRunStarts, if_pos rfl,
    show min (s.cyclic_alloc_region_index + count - 1) s.num_regions + 1 - (0 + count) =
      min s.cyclic_alloc_region_index (s.num_regions + 1 - count) by omega]

theorem LargeRunStart_plain (s : RegionSpace) (count : Nat) :
    s.LargeRunStart false count = Search.firstWindow s.RegionFree count 0 s.num_regions := by
  rw [LargeRunStart, LargeRunStarts, if_neg Bool.false_ne_true, Search.firstWindow, Nat.zero_add]

/-- Every window that fits in the space is tried, in either order. -/
theorem mem_LargeRunStarts {kCyclicRegionAllocation : Bool} {cyclic num_regions count start : Nat} :
    start ∈ LargeRunStarts kCyclicRegionAllocation cyclic num_regions count ↔
      start + count ≤ num_regions := by
  cases kCyclicRegionAllocation
  · simp only [LargeRunStarts, Bool.false_eq_true, if_false, List.mem_range'_1]
    omega
  · simp only [LargeRunStarts, if_true, List.mem_append, List.mem_range'_1]
    omega

/-- The search finds a run exactly when some window of free regions fits. -/
theorem LargeRunStart_isSome_iff (kCyclicRegionAllocation : Bool) (s : RegionSpace) (count : Nat) :
    (s.LargeRunStart kCyclicRegionAllocation count).isSome ↔
      ∃ left, left + count ≤ s.num_regions ∧ Search.windowFree s.RegionFree left count = true := by
  rw [LargeRunStart, List.find?_isSome]
  simp only [mem_LargeRunStarts]

end RegionSpace

/-- `earlier` is tried before `left`: in plain order, or with the cyclic search
in the order rotated to start at the cursor (the starts from the cursor on,
then those before it). -/
def TriedBefore : (kCyclicRegionAllocation : Bool) → (cyclic earlier left : Nat) → Prop
  | true, cyclic, earlier, left =>
      (cyclic ≤ earlier ↔ cyclic ≤ left) ∧ earlier < left ∨ cyclic ≤ earlier ∧ left < cyclic
  | false, _, earlier, left => earlier < left

instance (kCyclicRegionAllocation : Bool) (cyclic earlier left : Nat) :
    Decidable (TriedBefore kCyclicRegionAllocation cyclic earlier left) := by
  cases kCyclicRegionAllocation <;> unfold TriedBefore <;> infer_instance

namespace RegionSpace

section FirstRun

variable {s : RegionSpace} {count left : Nat}

/-- The run the search returns, as the first window in the search order. -/
def FirstRun (kCyclicRegionAllocation : Bool) (s : RegionSpace) (count left : Nat) : Prop :=
  left + count ≤ s.num_regions ∧ Search.windowFree s.RegionFree left count = true ∧
    ∀ earlier, earlier + count ≤ s.num_regions →
      TriedBefore kCyclicRegionAllocation s.cyclic_alloc_region_index earlier left →
        Search.windowFree s.RegionFree earlier count = false

/-- When the search from the cursor finds a window, that window is the first
in the rotated order. -/
theorem firstRun_of_cursor_search {found : Nat}
    (first : Search.firstWindow s.RegionFree count s.cyclic_alloc_region_index s.num_regions =
      some found) :
    FirstRun true s count left ↔ left = found := by
  obtain ⟨atCursor, fits, isFree, earlierBlocked⟩ := Search.firstWindow_eq_some_iff.mp first
  constructor
  · rintro ⟨leftFits, leftFree, leftFirst⟩
    -- a window tried before the other one would not be free
    rcases Nat.lt_trichotomy left found with before | same | after
    · by_cases leftAtCursor : s.cyclic_alloc_region_index ≤ left
      · rw [earlierBlocked left leftAtCursor before] at leftFree
        exact absurd leftFree Bool.false_ne_true
      · rw [leftFirst found fits (Or.inr ⟨atCursor, by omega⟩)] at isFree
        exact absurd isFree Bool.false_ne_true
    · exact same
    · rw [leftFirst found fits (Or.inl ⟨by omega, after⟩)] at isFree
      exact absurd isFree Bool.false_ne_true
  · rintro rfl
    refine ⟨fits, isFree, fun earlier _ tried => ?_⟩
    rcases tried with ⟨sameSide, below⟩ | ⟨_, beforeCursor⟩
    · exact earlierBlocked earlier (sameSide.mpr atCursor) below
    · exact absurd beforeCursor (by omega)

/-- When the search from the cursor finds none, the first window is the one
the search from region 0 finds before the cursor. -/
theorem firstRun_of_wrapped_search (nonempty : 0 < count)
    (first : Search.firstWindow s.RegionFree count s.cyclic_alloc_region_index s.num_regions =
      none) :
    FirstRun true s count left ↔
      Search.firstWindow s.RegionFree count 0
        (min (s.cyclic_alloc_region_index + count - 1) s.num_regions) = some left := by
  rw [Search.firstWindow_eq_none_iff] at first
  rw [Search.firstWindow_eq_some_iff]
  constructor
  · rintro ⟨leftFits, leftFree, leftFirst⟩
    -- a free window from the cursor on would contradict the first search
    have beforeCursor : left < s.cyclic_alloc_region_index := by
      by_contra atCursor
      rw [first left (by omega) leftFits] at leftFree
      exact Bool.false_ne_true leftFree
    exact ⟨Nat.zero_le _, by omega, leftFree, fun earlier _ below =>
      leftFirst earlier (by omega) (Or.inl ⟨by omega, below⟩)⟩
  · rintro ⟨-, leftFits, leftFree, leftFirst⟩
    refine ⟨by omega, leftFree, fun earlier earlierFits tried => ?_⟩
    rcases tried with ⟨_, below⟩ | ⟨atCursor, _⟩
    · exact leftFirst earlier (Nat.zero_le _) below
    · exact first earlier atCursor earlierFits

/-- The search's result is the first window of free regions in the order it
tries them. -/
theorem LargeRunStart_eq_some_iff (kCyclicRegionAllocation : Bool) (nonempty : 0 < count) :
    s.LargeRunStart kCyclicRegionAllocation count = some left ↔
      FirstRun kCyclicRegionAllocation s count left := by
  cases kCyclicRegionAllocation
  · rw [LargeRunStart_plain, Search.firstWindow_eq_some_iff]
    constructor
    · rintro ⟨-, leftFits, leftFree, leftFirst⟩
      exact ⟨leftFits, leftFree, fun earlier _ below => leftFirst earlier (Nat.zero_le _) below⟩
    · rintro ⟨leftFits, leftFree, leftFirst⟩
      exact ⟨Nat.zero_le _, leftFits, leftFree, fun earlier _ below =>
        leftFirst earlier (by omega) below⟩
  · rw [LargeRunStart_cyclic s nonempty]
    cases first : Search.firstWindow s.RegionFree count s.cyclic_alloc_region_index s.num_regions with
    | some found =>
      rw [Option.some_or, firstRun_of_cursor_search first, Option.some_inj, eq_comm]
    | none =>
      rw [Option.none_or, firstRun_of_wrapped_search nonempty first]

end FirstRun

end RegionSpace

/-! ## Freeing a large run -/

namespace RegionSpace

theorem CountFreed_frame (kForEvac : Bool) (s : RegionSpace) :
    (s.CountFreed kForEvac).begin = s.begin ∧ (s.CountFreed kForEvac).num_regions = s.num_regions := by
  cases kForEvac <;> exact ⟨rfl, rfl⟩

/-- The region array once region `p` is cleared and the `m` regions after it
are cleared too. -/
theorem clear_run_succ (regions : Nat → Region) (p m : Nat) :
    (fun i => if p + 1 ≤ i ∧ i < p + 1 + m then
        (Function.update regions p (regions p).Clear i).Clear
      else Function.update regions p (regions p).Clear i) =
      fun i => if p ≤ i ∧ i < p + (m + 1) then (regions i).Clear else regions i := by
  funext i
  by_cases atP : i = p
  · subst atP
    rw [if_neg (by omega), if_pos (by omega), Function.update_self]
  · rw [Function.update_of_ne atP]
    by_cases inside : p + 1 ≤ i ∧ i < p + 1 + m
    · rw [if_pos inside, if_pos (by omega)]
    · rw [if_neg inside, if_neg (by omega)]

/-- The loop of `FreeLarge` from region `p`, `m` regions before its end:
it clears those regions and uncounts each.  The induction is on `m`; each
round's address is `p` regions into the space, so `RefToRegionLocked` finds
region `p`. -/
theorem FreeLargeLoop_eq (kForEvac : Bool) :
    ∀ (m p fuel : Nat) (s : RegionSpace), m ≤ fuel →
      FreeLargeLoop kForEvac (s.begin + (p + m) * kRegionSize) fuel (s.begin + p * kRegionSize) s =
        { s with
          regions := fun i => if p ≤ i ∧ i < p + m then (s.regions i).Clear else s.regions i
          num_non_free_regions :=
            if kForEvac then s.num_non_free_regions else s.num_non_free_regions - m
          num_evac_regions := if kForEvac then s.num_evac_regions - m else s.num_evac_regions }
  | 0, p, fuel, s, _ => by
    have unchanged : FreeLargeLoop kForEvac (s.begin + (p + 0) * kRegionSize) fuel
        (s.begin + p * kRegionSize) s = s := by
      cases fuel with
      | zero => rfl
      | succ fuel => rw [FreeLargeLoop, if_neg (by simp)]
    have noRun : (fun i => if p ≤ i ∧ i < p + 0 then (s.regions i).Clear else s.regions i) =
        s.regions :=
      funext fun i => if_neg (by omega)
    rw [unchanged, noRun]
    cases kForEvac <;> rfl
  | m + 1, p, fuel + 1, s, enough => by
    have regionSize : kRegionSize = 262144 := rfl
    have index : s.RefToRegionIndex (s.begin + p * kRegionSize) = p := by
      unfold RefToRegionIndex
      rw [Nat.add_sub_cancel_left, Nat.mul_div_cancel _ (by omega)]
    have before : s.begin + p * kRegionSize < s.begin + (p + (m + 1)) * kRegionSize := by
      rw [regionSize]
      omega
    let cleared := (s.setRegion p (s.regions p).Clear).CountFreed kForEvac
    have frame := CountFreed_frame kForEvac (s.setRegion p (s.regions p).Clear)
    -- the next round starts one region on, in the space with region `p` cleared
    have next : s.begin + p * kRegionSize + kRegionSize = cleared.begin + (p + 1) * kRegionSize := by
      rw [frame.1, Nat.add_mul, Nat.one_mul, Nat.add_assoc]
      rfl
    have last : s.begin + (p + (m + 1)) * kRegionSize = cleared.begin + (p + 1 + m) * kRegionSize := by
      rw [frame.1, show p + (m + 1) = p + 1 + m by omega]
      rfl
    rw [FreeLargeLoop, if_pos before]
    dsimp only
    rw [index, next, last, FreeLargeLoop_eq kForEvac m (p + 1) fuel cleared (by omega)]
    cases kForEvac
    · simp only [cleared, CountFreed, setRegion, Bool.false_eq_true, if_false, clear_run_succ]
      congr 1
      omega
    · simp only [cleared, CountFreed, setRegion, if_true, clear_run_succ]
      congr 1
      omega

/-- `FreeLarge` of a run of `count` regions from region `p`, given by its first
address and its size in bytes: the rounded end is the run's end, so the loop
frees exactly the run. -/
theorem FreeLarge_eq (kForEvac : Bool) (s : RegionSpace) {p count : Nat}
    (aligned : s.begin % kRegionSize = 0) (nonempty : 0 < count) :
    s.FreeLarge kForEvac (s.begin + p * kRegionSize) (count * kRegionSize) =
      some { s with
        regions := fun i => if p ≤ i ∧ i < p + count then (s.regions i).Clear else s.regions i
        num_non_free_regions :=
          if kForEvac then s.num_non_free_regions else s.num_non_free_regions - count
        num_evac_regions := if kForEvac then s.num_evac_regions - count else s.num_evac_regions } := by
  have regionSize : kRegionSize = 262144 := rfl
  have endAddr : Base.RoundUp (s.begin + p * kRegionSize + count * kRegionSize) kRegionSize =
      s.begin + (p + count) * kRegionSize := by
    unfold Base.RoundUp Base.RoundDown
    rw [regionSize] at aligned ⊢
    omega
  have before : s.begin + p * kRegionSize < s.begin + (p + count) * kRegionSize := by
    rw [regionSize]
    omega
  unfold FreeLarge
  dsimp only
  rw [endAddr, if_pos before, FreeLargeLoop_eq]
  rw [regionSize]
  omega

end RegionSpace

/-! ## What an allocation leaves behind -/

namespace RegionSpace

/-- Region `i` once the run of `count` regions at `left` holds one large
object: the first region large, the others its tails, the rest as in `s`. -/
def LargeRunRegion (kForEvac : Bool) (s : RegionSpace) (left count i : Nat) : Region :=
  if i = left then (s.regions left).AsLarge kForEvac s.time (count * kRegionSize)
  else if left < i ∧ i < left + count then (s.regions i).AsLargeTail kForEvac s.time
  else s.regions i

theorem CountAllocated_frame (kForEvac : Bool) (s : RegionSpace) :
    (s.CountAllocated kForEvac).begin = s.begin ∧
      (s.CountAllocated kForEvac).num_regions = s.num_regions ∧
      (s.CountAllocated kForEvac).time = s.time ∧
      (s.CountAllocated kForEvac).cyclic_alloc_region_index = s.cyclic_alloc_region_index := by
  cases kForEvac <;> exact ⟨rfl, rfl, rfl, rfl⟩

theorem AllocLargeRun_fst (kForEvac : Bool) (s : RegionSpace) (left count : Nat) :
    (s.AllocLargeRun kForEvac left count).1 =
      ⟨(s.regions left).begin, count * kRegionSize, left + count⟩ := by
  rw [AllocLargeRun_eq]

theorem AllocLargeRun_regions (kForEvac : Bool) (s : RegionSpace) (left count : Nat) :
    (s.AllocLargeRun kForEvac left count).2.regions = s.LargeRunRegion kForEvac left count := by
  funext i
  rw [AllocLargeRun_eq, UnfreeLargeTails_regions, CountAllocated_regions,
    (CountAllocated_frame _ _).2.2.1, LargeRunRegion]
  dsimp only
  by_cases atLeft : i = left
  · subst atLeft
    rw [if_neg (by omega), if_pos rfl, Function.update_self]
  · rw [Function.update_of_ne atLeft, if_neg atLeft]
    by_cases inside : left + 1 ≤ i ∧ i < left + 1 + (left + count - (left + 1))
    · rw [if_pos inside, if_pos (by omega)]
    · rw [if_neg inside, if_neg (by omega)]

/-- The run is counted once per region, in the counter `kForEvac` picks. -/
theorem AllocLargeRun_counts (kForEvac : Bool) (s : RegionSpace) (left : Nat) {count : Nat}
    (nonempty : 0 < count) :
    (s.AllocLargeRun kForEvac left count).2.num_non_free_regions =
        (if kForEvac then s.num_non_free_regions else s.num_non_free_regions + count) ∧
      (s.AllocLargeRun kForEvac left count).2.num_evac_regions =
        (if kForEvac then s.num_evac_regions + count else s.num_evac_regions) := by
  rw [AllocLargeRun_eq, (UnfreeLargeTails_counts kForEvac _ _ _).1,
    (UnfreeLargeTails_counts kForEvac _ _ _).2]
  cases kForEvac
  · exact ⟨by simp only [CountAllocated, Bool.false_eq_true, if_false]; omega, rfl⟩
  · exact ⟨rfl, by simp only [CountAllocated, if_true]; omega⟩

theorem AllocLargeRun_frame (kForEvac : Bool) (s : RegionSpace) (left count : Nat) :
    (s.AllocLargeRun kForEvac left count).2.begin = s.begin ∧
      (s.AllocLargeRun kForEvac left count).2.num_regions = s.num_regions ∧
      (s.AllocLargeRun kForEvac left count).2.cyclic_alloc_region_index =
        s.cyclic_alloc_region_index := by
  rw [AllocLargeRun_eq]
  obtain ⟨sameBegin, sameRegions, -, sameCursor⟩ := UnfreeLargeTails_frame kForEvac
    (({ s with
        regions := Function.update s.regions left
          ((s.regions left).AsLarge kForEvac s.time (count * kRegionSize))
        non_free_region_index_limit :=
          max s.non_free_region_index_limit ((s.regions left).idx + 1) } : RegionSpace).CountAllocated
      kForEvac) (left + 1) (left + count - (left + 1))
  obtain ⟨baseBegin, baseRegions, -, baseCursor⟩ := CountAllocated_frame kForEvac
    ({ s with
        regions := Function.update s.regions left
          ((s.regions left).AsLarge kForEvac s.time (count * kRegionSize))
        non_free_region_index_limit :=
          max s.non_free_region_index_limit ((s.regions left).idx + 1) } : RegionSpace)
  exact ⟨sameBegin.trans baseBegin, sameRegions.trans baseRegions, sameCursor.trans baseCursor⟩

/-- Freeing a run allocated at `left`, given by its first address and its
size, clears the run's regions and takes back its counts.  `Clear` keeps
only a region's place, so the large and tail regions clear as the free
regions they were made from. -/
theorem FreeLarge_LargeRunRegion (kForEvac : Bool) {s t : RegionSpace} {left count : Nat}
    (aligned : t.begin % kRegionSize = 0) (nonempty : 0 < count)
    (allocated : t.regions = s.LargeRunRegion kForEvac left count)
    (counts : t.num_non_free_regions =
        (if kForEvac then s.num_non_free_regions else s.num_non_free_regions + count) ∧
      t.num_evac_regions = (if kForEvac then s.num_evac_regions + count else s.num_evac_regions)) :
    ∃ freed, t.FreeLarge kForEvac (t.begin + left * kRegionSize) (count * kRegionSize) = some freed ∧
      (∀ i, freed.regions i = if left ≤ i ∧ i < left + count then (s.regions i).Clear else s.regions i) ∧
      freed.num_non_free_regions = s.num_non_free_regions ∧
      freed.num_evac_regions = s.num_evac_regions := by
  refine ⟨_, FreeLarge_eq kForEvac t aligned nonempty, fun i => ?_, ?_⟩
  · dsimp only
    rw [allocated, LargeRunRegion]
    by_cases atLeft : i = left
    · subst atLeft
      rw [if_pos ⟨le_rfl, by omega⟩, if_pos rfl, if_pos ⟨le_rfl, by omega⟩, Region.Clear_AsLarge]
    · rw [if_neg atLeft]
      by_cases inside : left ≤ i ∧ i < left + count
      · rw [if_pos inside, if_pos ⟨by omega, inside.2⟩, if_pos inside, Region.Clear_AsLargeTail]
      · rw [if_neg inside, if_neg (by omega), if_neg inside]
  · obtain ⟨nonFree, evac⟩ := counts
    cases kForEvac
    · simp only [Bool.false_eq_true, if_false] at nonFree evac ⊢
      omega
    · simp only [if_true] at nonFree evac ⊢
      omega

end RegionSpace

/-! ## `AllocLarge` as a first-fit allocator -/

namespace RegionSpace

/-- `AllocLarge` once its search has ended: the run at the start it chose is
allocated and, with the cyclic search, the cursor moves past it. -/
def AllocLargeChosen (kCyclicRegionAllocation kForEvac : Bool) (s : RegionSpace) (count : Nat) :
    Option Nat → Option LargeAllocation × RegionSpace
  | some left =>
      let run := s.AllocLargeRun kForEvac left count
      (some run.1,
        if kCyclicRegionAllocation then
          { run.2 with cyclic_alloc_region_index := run.1.next_region % s.num_regions }
        else run.2)
  | none => (none, s)

/-- The allocation at a chosen start, field by field. -/
theorem AllocLargeChosen_some (kCyclicRegionAllocation kForEvac : Bool) (s : RegionSpace)
    {count : Nat} (nonempty : 0 < count) (left : Nat) :
    (s.AllocLargeChosen kCyclicRegionAllocation kForEvac count (some left)).1 =
        some ⟨(s.regions left).begin, count * kRegionSize, left + count⟩ ∧
      (s.AllocLargeChosen kCyclicRegionAllocation kForEvac count (some left)).2.begin = s.begin ∧
      (s.AllocLargeChosen kCyclicRegionAllocation kForEvac count (some left)).2.regions =
        s.LargeRunRegion kForEvac left count ∧
      (s.AllocLargeChosen kCyclicRegionAllocation kForEvac count (some left)).2.num_non_free_regions =
        (if kForEvac then s.num_non_free_regions else s.num_non_free_regions + count) ∧
      (s.AllocLargeChosen kCyclicRegionAllocation kForEvac count (some left)).2.num_evac_regions =
        (if kForEvac then s.num_evac_regions + count else s.num_evac_regions) ∧
      (s.AllocLargeChosen kCyclicRegionAllocation kForEvac count (some left)).2.cyclic_alloc_region_index =
        (if kCyclicRegionAllocation then (left + count) % s.num_regions
          else s.cyclic_alloc_region_index) := by
  have counts := AllocLargeRun_counts kForEvac s left nonempty
  have frame := AllocLargeRun_frame kForEvac s left count
  -- the cursor is the one field the two modes leave differently
  cases kCyclicRegionAllocation
  · exact ⟨by rw [AllocLargeChosen, AllocLargeRun_fst], frame.1, AllocLargeRun_regions kForEvac s left count,
      counts.1, counts.2, frame.2.2⟩
  · refine ⟨by rw [AllocLargeChosen, AllocLargeRun_fst], frame.1,
      AllocLargeRun_regions kForEvac s left count, counts.1, counts.2, ?_⟩
    simp only [AllocLargeChosen, if_true, AllocLargeRun_fst]

/-- Without the cyclic search, `AllocLarge` is one first-fit search from
region 0. -/
theorem AllocLargeInRange_plain (kForEvac : Bool) (s : RegionSpace) {count : Nat}
    (nonempty : 0 < count) (noWrap : s.num_regions + count < 2 ^ 64) :
    s.AllocLargeInRange kForEvac 0 s.num_regions count =
      s.AllocLargeChosen false kForEvac count (s.LargeRunStart false count) := by
  rw [AllocLargeInRange_eq kForEvac s nonempty (by omega) noWrap, LargeRunStart_plain]
  -- closed by rewriting: left to the kernel, the mode's if would make it
  -- unfold the whole run before the if
  cases Search.firstWindow s.RegionFree count 0 s.num_regions with
  | some left => simp only [AllocLargeAt, AllocLargeChosen, Bool.false_eq_true, if_false]
  | none => rfl

/-- The cyclic search is the first-fit search in the rotated order: its two
calls of `AllocLargeInRange` are `LargeRunStart_cyclic`'s two ranges, and the
end of the second, `cursor + count - 1`, does not wrap. -/
theorem AllocLargeCyclic_eq (kForEvac : Bool) (s : RegionSpace) {count : Nat}
    (nonempty : 0 < count) (cursor : s.cyclic_alloc_region_index < s.num_regions)
    (noWrap : s.num_regions + count < 2 ^ 64) :
    s.AllocLargeCyclic kForEvac count =
      s.AllocLargeChosen true kForEvac count (s.LargeRunStart true count) := by
  rw [AllocLargeCyclic]
  dsimp only
  rw [AllocLargeInRange_eq kForEvac s nonempty (by omega) noWrap, LargeRunStart_cyclic s nonempty]
  cases first : Search.firstWindow s.RegionFree count s.cyclic_alloc_region_index s.num_regions with
  | some left => simp only [AllocLargeAt, AllocLargeChosen, Option.some_or, if_true]
  | none =>
    have exact : (truncU64 (((s.cyclic_alloc_region_index + count : Nat) : Int) - 1) : Int) =
        ((s.cyclic_alloc_region_index + count : Nat) : Int) - 1 :=
      truncU64_of_lt (by omega) (by omega)
    have wrapEnd : truncU64 (((s.cyclic_alloc_region_index + count : Nat) : Int) - 1) =
        s.cyclic_alloc_region_index + count - 1 := by
      omega
    dsimp only [AllocLargeAt]
    rw [wrapEnd, AllocLargeInRange_eq kForEvac s nonempty (by omega) (by omega), Option.none_or]
    cases Search.firstWindow s.RegionFree count 0
      (min (s.cyclic_alloc_region_index + count - 1) s.num_regions) with
    | some left => simp only [AllocLargeAt, AllocLargeChosen, if_true]
    | none => rfl

/-- When the evacuation reserve allows it, `AllocLarge` allocates the first
window of free regions in the order it tries them, or nothing.  The space's
layout bounds the region count, so no bound the loops compute wraps. -/
theorem AllocLarge_eq (kCyclicRegionAllocation kForEvac : Bool) {s : RegionSpace}
    {num_bytes : Nat} (layout : s.Layout) (cursor : s.cyclic_alloc_region_index < s.num_regions)
    (large : kRegionSize < num_bytes) (noWrap : num_bytes + kRegionSize - 1 < 2 ^ 64)
    (reserve : kForEvac = true ∨
      (s.num_non_free_regions + (num_bytes + kRegionSize - 1) / kRegionSize) * 2 ≤
        s.num_regions) :
    s.AllocLarge kCyclicRegionAllocation kForEvac num_bytes =
      s.AllocLargeChosen kCyclicRegionAllocation kForEvac
        ((num_bytes + kRegionSize - 1) / kRegionSize)
        (s.LargeRunStart kCyclicRegionAllocation ((num_bytes + kRegionSize - 1) / kRegionSize)) := by
  have regionSize : kRegionSize = 262144 := rfl
  have fewRegions := layout.num_regions_le
  have countPos : 0 < (num_bytes + kRegionSize - 1) / kRegionSize :=
    Nat.div_pos (by omega) (by omega)
  have countBound : (num_bytes + kRegionSize - 1) / kRegionSize ≤ 2 ^ 46 := by
    rw [regionSize] at noWrap ⊢
    omega
  unfold AllocLarge
  rw [NumRegsInLargeRegion_eq noWrap]
  generalize (num_bytes + kRegionSize - 1) / kRegionSize = count at countPos countBound reserve ⊢
  have passes : ¬((!kForEvac) = true ∧ (s.num_non_free_regions + count) * 2 > s.num_regions) := by
    rintro ⟨notEvac, tooMany⟩
    rcases reserve with evac | fits
    · rw [evac] at notEvac
      exact Bool.false_ne_true notEvac
    · exact Nat.lt_irrefl _ (Nat.lt_of_lt_of_le tooMany fits)
  dsimp only
  rw [if_neg passes]
  cases kCyclicRegionAllocation
  · rw [if_neg Bool.false_ne_true, AllocLargeInRange_plain kForEvac s countPos (by omega)]
  · rw [if_pos rfl, AllocLargeCyclic_eq kForEvac s countPos cursor (by omega)]

/-- Large allocation is a first-fit allocator: when the evacuation reserve
allows it, `AllocLarge` finds a run exactly when `count` consecutive regions
are free; it takes the first such run in the order it tries them (from the
cursor, then from region 0, in the cyclic mode), makes it one large region
and its tails, counts it and moves the cursor past it; and `FreeLarge` of the
object it returns clears the run and takes back the counts. -/
theorem AllocLarge_first_fit (kCyclicRegionAllocation kForEvac : Bool) {s : RegionSpace}
    {num_bytes : Nat} (layout : s.Layout) (cursor : s.cyclic_alloc_region_index < s.num_regions)
    (large : kRegionSize < num_bytes) (noWrap : num_bytes + kRegionSize - 1 < 2 ^ 64)
    (reserve : kForEvac = true ∨
      (s.num_non_free_regions + (num_bytes + kRegionSize - 1) / kRegionSize) * 2 ≤
        s.num_regions) :
    let count := (num_bytes + kRegionSize - 1) / kRegionSize
    let result := s.AllocLarge kCyclicRegionAllocation kForEvac num_bytes
    (result.1.isSome ↔
        ∃ left, left + count ≤ s.num_regions ∧ Search.windowFree s.RegionFree left count = true) ∧
      (result.1 = none → result.2 = s) ∧
      ∀ allocation, result.1 = some allocation →
        ∃ left, FirstRun kCyclicRegionAllocation s count left ∧
          allocation = ⟨s.begin + left * kRegionSize, count * kRegionSize, left + count⟩ ∧
          result.2.regions = s.LargeRunRegion kForEvac left count ∧
          result.2.num_non_free_regions =
            (if kForEvac then s.num_non_free_regions else s.num_non_free_regions + count) ∧
          result.2.num_evac_regions =
            (if kForEvac then s.num_evac_regions + count else s.num_evac_regions) ∧
          result.2.cyclic_alloc_region_index =
            (if kCyclicRegionAllocation then (left + count) % s.num_regions
              else s.cyclic_alloc_region_index) ∧
          ∃ freed, result.2.FreeLarge kForEvac allocation.obj allocation.bytes_allocated = some freed ∧
            (∀ i, freed.regions i =
              if left ≤ i ∧ i < left + count then (s.regions i).Clear else s.regions i) ∧
            freed.num_non_free_regions = s.num_non_free_regions ∧
            freed.num_evac_regions = s.num_evac_regions := by
  intro count result
  have countPos : 0 < (num_bytes + kRegionSize - 1) / kRegionSize :=
    Nat.div_pos (by omega) (by decide)
  have allocates : result =
      s.AllocLargeChosen kCyclicRegionAllocation kForEvac count
        (s.LargeRunStart kCyclicRegionAllocation count) :=
    AllocLarge_eq kCyclicRegionAllocation kForEvac layout cursor large noWrap reserve
  have windows := LargeRunStart_isSome_iff kCyclicRegionAllocation s count
  cases found : s.LargeRunStart kCyclicRegionAllocation count with
  | none =>
    -- no window is free, and nothing changes
    rw [found] at allocates windows
    rw [allocates]
    exact ⟨windows, fun _ => rfl, fun _ returned => absurd returned (Option.some_ne_none _).symm⟩
  | some left =>
    rw [found] at allocates windows
    have first := (LargeRunStart_eq_some_iff kCyclicRegionAllocation countPos).mp found
    obtain ⟨returned, sameBegin, regions, nonFree, evac, moved⟩ :=
      AllocLargeChosen_some kCyclicRegionAllocation kForEvac s countPos left
    rw [← allocates] at returned sameBegin regions nonFree evac moved
    have obj : (s.regions left).begin = s.begin + left * kRegionSize :=
      layout.regionBegin left (by have := first.1; omega)
    rw [obj] at returned
    refine ⟨by rw [returned]; exact windows, fun none => absurd none (by rw [returned]; simp),
      fun allocation returned' => ?_⟩
    rw [returned, Option.some_inj] at returned'
    subst returned'
    refine ⟨left, first, rfl, regions, nonFree, evac, moved, ?_⟩
    have aligned : result.2.begin % kRegionSize = 0 := by
      rw [sameBegin]
      exact layout.aligned
    have freed := FreeLarge_LargeRunRegion kForEvac aligned countPos regions ⟨nonFree, evac⟩
    rw [sameBegin] at freed
    exact freed


/-- A free region `i` regions into a space mapped at address 0, as `Init`
and `Clear` leave it. -/
def freeRegionAt (i : Nat) : Region :=
  ⟨i, i * kRegionSize, i * kRegionSize, 0, 0, 2 ^ 64 - 1, false, false, none,
    .kRegionStateFree, .kRegionTypeNone⟩

/-- Four free regions, with the cursor at region 1. -/
def fourFreeRegions : RegionSpace :=
  ⟨0, 4, freeRegionAt, 0, 0, 0, 0, 1⟩

theorem AllocLarge_first_fit_fourFree :
    fourFreeRegions.Layout ∧
      (fourFreeRegions.AllocLarge true false (2 * kRegionSize)).1.isSome = true :=
  have layout : fourFreeRegions.Layout :=
    ⟨by decide, by decide, fun i _ => (Nat.zero_add _).symm⟩
  ⟨layout, (AllocLarge_first_fit true false layout (by decide) (by decide) (by decide)
    (Or.inr (by decide))).1.mpr ⟨1, by decide, by decide⟩⟩

end RegionSpace

end ArtRuntime.Gc
