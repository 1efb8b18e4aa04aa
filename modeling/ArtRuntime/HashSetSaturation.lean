import ArtRuntime.HashSet

namespace ArtRuntime.Base.HashSet

/-!
# A load-factor pair that fills every bucket

`Expand` sizes the new table from the minimum load factor and `Resize` sets
the expansion threshold from the maximum one; both round down.  With the
load factors `1023/1024` and `2047/2048` and the identity hash, the integers
`0, …, 999` go into buckets `0, …, 999` of a table that `Resize` keeps at
`kMinBuckets = 1000` buckets: `⌊999 · 1024/1023⌋ = 999` and
`⌊1000 · 1024/1023⌋ = 1000` are below the minimum, and the threshold
`⌊1000 · 2047/2048⌋ = 999` is reached again after every expansion.  After the
thousandth insertion every bucket is full, and the probe of the next
insertion never finds an empty slot.

Every quotient and product here is at least `0.02` away from an integer, so
the `double` arithmetic of the source truncates to the same values.
-/

/-- The slots of a table of `buckets` buckets that holds `0, …, count - 1`
each in its own bucket. -/
def IdentitySlots (count buckets : Nat) : List (Option Nat) :=
  (List.range count).map some ++ List.replicate (buckets - count) none

theorem IdentitySlots_length
    {count buckets : Nat}
    (countLe : count ≤ buckets) :
    (IdentitySlots count buckets).length = buckets := by
  simp [IdentitySlots]
  omega

theorem IdentitySlots_getD (count buckets index : Nat) :
    (IdentitySlots count buckets).getD index none =
      if index < count then some index else none := by
  rw [List.getD_eq_getElem?_getD, IdentitySlots]
  by_cases below : index < count
  · rw [List.getElem?_append_left (by simpa using below)]
    simp [below]
  · rw [List.getElem?_append_right (by simp; omega), List.getElem?_replicate]
    simp only [below, if_false]
    split <;> rfl

theorem IdentitySlots_set
    {count buckets : Nat}
    (countLt : count < buckets) :
    (IdentitySlots count buckets).set count (some count) =
      IdentitySlots (count + 1) buckets := by
  unfold IdentitySlots
  rw [List.set_append_right _ _ (by simp)]
  obtain ⟨rest, restEq⟩ : ∃ rest, buckets - count = rest + 1 :=
    ⟨buckets - count - 1, by omega⟩
  rw [restEq, List.replicate_succ, List.length_map, List.length_range, Nat.sub_self,
    List.set_cons_zero, List.range_succ, List.map_append, List.append_assoc]
  simp only [List.map_cons, List.map_nil, List.singleton_append]
  congr 3
  omega

theorem ElementForIndex_identity
    {set : HashSet Nat}
    {count buckets : Nat}
    (slots : set.data = IdentitySlots count buckets)
    (index : Nat) :
    set.ElementForIndex index = if index < count then some index else none := by
  rw [ElementForIndex, slots, IdentitySlots_getD]

theorem NumBuckets_identity
    {set : HashSet Nat}
    {count buckets : Nat}
    (countLe : count ≤ buckets)
    (slots : set.data = IdentitySlots count buckets) :
    set.NumBuckets = buckets := by
  rw [NumBuckets, slots, IdentitySlots_length countLe]

/-- With the identity hash, the next integer lands in its own, empty bucket. -/
theorem ReinsertSlot_identity
    {set : HashSet Nat}
    {count buckets : Nat}
    (countLt : count < buckets)
    (slots : set.data = IdentitySlots count buckets) :
    ReinsertSlot id set (some count) =
      some { set with data := IdentitySlots (count + 1) buckets } := by
  have bucketCount := NumBuckets_identity countLt.le slots
  have emptyHere : set.ElementForIndex count = none := by
    rw [ElementForIndex_identity slots, if_neg (Nat.lt_irrefl count)]
  simp only [ReinsertSlot, FirstAvailableSlot, IndexForHash, bucketCount, id]
  rw [if_neg (by omega), Nat.mod_eq_of_lt countLt]
  obtain ⟨fuel, fuelEq⟩ : ∃ fuel, buckets = fuel + 1 := ⟨buckets - 1, by omega⟩
  rw [fuelEq, FirstAvailableSlotFrom, emptyHere]
  simp only [Option.map_some, SetSlot, slots, IdentitySlots_set countLt, ← fuelEq]

/-- Reinserting `start, …, start + count - 1` in order extends an identity
table. -/
theorem foldlM_ReinsertSlot_identity
    {buckets count : Nat} :
    ∀ (start : Nat) (set : HashSet Nat),
      start + count ≤ buckets →
      set.data = IdentitySlots start buckets →
      ((List.range' start count).map some).foldlM (ReinsertSlot id) set =
        some { set with data := IdentitySlots (start + count) buckets } := by
  induction count with
  | zero =>
      intro start set _ slots
      simp [← slots]
  | succ count inductionHypothesis =>
      intro start set fits slots
      rw [List.range'_succ, List.map_cons, List.foldlM_cons,
        ReinsertSlot_identity (by omega) slots, Option.bind_eq_bind, Option.bind_some,
        inductionHypothesis (start + 1) _ (by omega) rfl,
        show start + 1 + count = start + (count + 1) by omega]

/-- The reinsertion loop skips the empty slots of the old storage. -/
theorem foldlM_ReinsertSlot_empty (set : HashSet Nat) (count : Nat) :
    (List.replicate count none).foldlM (ReinsertSlot id) set = some set := by
  induction count with
  | zero => rfl
  | succ count inductionHypothesis =>
      rw [List.replicate_succ, List.foldlM_cons]
      exact inductionHypothesis

/-- Reinserting an identity table into an empty one of as many buckets
rebuilds it. -/
theorem foldlM_ReinsertSlot_IdentitySlots
    {count buckets : Nat}
    {set : HashSet Nat}
    (countLe : count ≤ buckets)
    (empty : set.data = IdentitySlots 0 buckets) :
    (IdentitySlots count buckets).foldlM (ReinsertSlot id) set =
      some { set with data := IdentitySlots count buckets } := by
  conv_lhs => rw [IdentitySlots, List.range_eq_range', List.foldlM_append]
  rw [foldlM_ReinsertSlot_identity 0 set (by omega) empty, Option.bind_eq_bind,
    Option.bind_some, foldlM_ReinsertSlot_empty, Nat.zero_add]

/-- Resizing an identity table to at most `kMinBuckets` buckets puts every
element back into its own bucket. -/
theorem Resize_identity
    {set : HashSet Nat}
    {count new_size : Nat}
    (countLe : count ≤ kMinBuckets)
    (slots : set.data = IdentitySlots count kMinBuckets)
    (sizeLe : new_size ≤ kMinBuckets) :
    Resize id set new_size =
      some { set with
        data := IdentitySlots count kMinBuckets
        elements_until_expand := ⌊(kMinBuckets : ℚ) * set.max_load_factor⌋₊ } := by
  have newSize :
      (if new_size < kMinBuckets then kMinBuckets else new_size) = kMinBuckets := by
    split <;> omega
  simp only [Resize, newSize, Option.bind_eq_bind]
  rw [slots, foldlM_ReinsertSlot_IdentitySlots countLe rfl, Option.bind_some]
  simp only [NumBuckets, IdentitySlots_length countLe]
  rfl

/-- The set after `insert(0), …, insert(count - 1)` with the load factors
`1023/1024` and `2047/2048`. -/
structure Saturating (count : Nat) (set : HashSet Nat) : Prop where
  slots : set.data = IdentitySlots count kMinBuckets
  size : set.num_elements = count
  expandAt : set.elements_until_expand = 999
  minLoad : set.min_load_factor = 1023 / 1024
  maxLoad : set.max_load_factor = 2047 / 2048

/-- After the expansion test, an insertion of the next integer lands in its
own bucket. -/
theorem insert_of_expanded
    {set expanded : HashSet Nat}
    {count : Nat}
    (countLt : count < kMinBuckets)
    (expands : ExpandIfFull id set = some expanded)
    (saturating : Saturating count expanded) :
    ∃ next, HashSet.insert id (· == ·) set count = some (next, count, true) ∧
      Saturating (count + 1) next := by
  have bucketCount := NumBuckets_identity countLt.le saturating.slots
  have emptyHere : expanded.ElementForIndex count = none := by
    rw [ElementForIndex_identity saturating.slots, if_neg (Nat.lt_irrefl count)]
  have probe : FindIndexImpl (· == ·) expanded true count count = some (count, true) := by
    unfold FindIndexImpl
    rw [bucketCount, IndexForHash, bucketCount, if_neg (by decide),
      Nat.mod_eq_of_lt countLt]
    obtain ⟨fuel, fuelEq⟩ : ∃ fuel, kMinBuckets = fuel + 1 := ⟨kMinBuckets - 1, rfl⟩
    rw [fuelEq, ProbeFrom, emptyHere]
  refine ⟨{ expanded.SetSlot count (some count) with
    num_elements := expanded.num_elements + 1 }, ?_, ?_⟩
  · simp only [HashSet.insert, InsertWithHash, id, expands, probe, Option.bind_eq_bind,
      Option.bind_some, if_true, Option.pure_def]
  · exact ⟨by simp only [SetSlot, saturating.slots, IdentitySlots_set countLt],
      by rw [saturating.size], saturating.expandAt, saturating.minLoad, saturating.maxLoad⟩

/-- An expansion of a table of at most `kMinBuckets` integers keeps it at
`kMinBuckets` buckets and resets the threshold to `⌊1000 · 2047/2048⌋ = 999`. -/
theorem ExpandIfFull_saturating
    {set : HashSet Nat}
    {count : Nat}
    (saturating : Saturating count set)
    (countLe : count ≤ kMinBuckets) :
    ∃ expanded, ExpandIfFull id set = some expanded ∧ Saturating count expanded := by
  by_cases full : set.num_elements ≥ set.elements_until_expand
  · have requested : ⌊(set.num_elements : ℚ) / set.min_load_factor⌋₊ ≤ kMinBuckets := by
      have bound : (set.num_elements : ℚ) ≤ 1000 := by
        rw [saturating.size]
        exact_mod_cast countLe
      rw [saturating.minLoad, ← Nat.lt_succ_iff, Nat.floor_lt (by positivity),
        div_lt_iff₀ (by norm_num)]
      push_cast [kMinBuckets]
      linarith
    refine ⟨_, by rw [ExpandIfFull, if_pos full, Expand,
      Resize_identity countLe saturating.slots requested], ?_⟩
    refine ⟨rfl, saturating.size, ?_, saturating.minLoad, saturating.maxLoad⟩
    rw [saturating.maxLoad, Nat.floor_eq_iff (by norm_num)]
    norm_num [kMinBuckets]
  · exact ⟨set, if_neg full, saturating⟩

/-- The first insertion into a fresh set allocates `kMinBuckets` empty
buckets. -/
theorem ExpandIfFull_create :
    ∃ expanded, ExpandIfFull id (create (1023 / 1024) (2047 / 2048) : HashSet Nat) =
      some expanded ∧ Saturating 0 expanded := by
  have positive : 0 < kMinBuckets := by decide
  have expands : ExpandIfFull id (create (1023 / 1024) (2047 / 2048) : HashSet Nat) =
      some ⟨List.replicate kMinBuckets none, 0, ⌊(kMinBuckets : ℚ) * (2047 / 2048)⌋₊,
        1023 / 1024, 2047 / 2048⟩ := by
    simp [ExpandIfFull, Expand, Resize, create, NumBuckets, positive]
  refine ⟨_, expands, rfl, rfl, ?_, rfl, rfl⟩
  rw [Nat.floor_eq_iff (by norm_num)]
  norm_num [kMinBuckets]

/-- Probing a table whose every bucket holds an integer below `element`
visits bucket after bucket and never stops. -/
theorem ProbeFrom_full
    {set : HashSet Nat}
    {buckets element : Nat}
    (slots : set.data = IdentitySlots buckets buckets)
    (absent : buckets ≤ element)
    (fuel : Nat) :
    ∀ index, index < buckets → ProbeFrom (· == ·) set true element fuel index = none := by
  induction fuel with
  | zero => intro index _; rfl
  | succ fuel inductionHypothesis =>
      intro index indexLt
      have occupied : set.ElementForIndex index = some index := by
        rw [ElementForIndex_identity slots, if_pos indexLt]
      have differs : (index == element) = false := beq_false_of_ne (by omega)
      rw [ProbeFrom, occupied]
      simp only [Bool.true_and, differs, Bool.false_eq_true, if_false]
      apply inductionHypothesis
      rw [NextIndex, NumBuckets_identity le_rfl slots]
      split <;> omega

/-- Once every bucket is full, inserting the next integer never returns. -/
theorem insert_full_none
    {set : HashSet Nat}
    (saturating : Saturating kMinBuckets set) :
    HashSet.insert id (· == ·) set kMinBuckets = none := by
  obtain ⟨expanded, expands, saturated⟩ := ExpandIfFull_saturating saturating le_rfl
  have bucketCount := NumBuckets_identity le_rfl saturated.slots
  have probe : FindIndexImpl (· == ·) expanded true kMinBuckets kMinBuckets = none := by
    have start := IndexForHash_lt (by rw [bucketCount]; decide) kMinBuckets
    rw [bucketCount] at start
    rw [FindIndexImpl, bucketCount]
    exact ProbeFrom_full saturated.slots le_rfl _ _ start
  simp only [HashSet.insert, InsertWithHash, id, expands, probe, Option.bind_eq_bind,
    Option.bind_some, Option.bind_none]

/-- Inserting `0, …, count` one after another into a fresh set fills the
first `count + 1` of its `kMinBuckets` buckets. -/
theorem InsertAll_range_saturating (count : Nat) :
    count < kMinBuckets →
      ∃ set, InsertAll id (· == ·) (create (1023 / 1024) (2047 / 2048))
        (List.range (count + 1)) = some set ∧ Saturating (count + 1) set := by
  induction count with
  | zero =>
      intro countLt
      obtain ⟨expanded, expands, saturating⟩ := ExpandIfFull_create
      obtain ⟨next, inserts, saturated⟩ := insert_of_expanded countLt expands saturating
      exact ⟨next, by simp [InsertAll, inserts], saturated⟩
  | succ count inductionHypothesis =>
      intro countLt
      obtain ⟨set, inserts, saturating⟩ := inductionHypothesis (by omega)
      obtain ⟨expanded, expands, saturated⟩ := ExpandIfFull_saturating saturating countLt.le
      obtain ⟨next, insertsNext, saturatedNext⟩ :=
        insert_of_expanded countLt expands saturated
      refine ⟨next, ?_, saturatedNext⟩
      rw [List.range_succ, InsertAll_append_singleton, inserts, Option.bind_some, insertsNext]
      rfl

theorem hashSet_fills_every_bucket :
    (0 : ℚ) < 1023 / 1024 ∧ (1023 / 1024 : ℚ) < 2047 / 2048 ∧ (2047 / 2048 : ℚ) < 1 ∧
      ∃ full : HashSet Nat,
        InsertAll id (· == ·) (create (1023 / 1024) (2047 / 2048)) (List.range kMinBuckets) =
          some full ∧
        full.num_elements = full.NumBuckets ∧
        HashSet.insert id (· == ·) full kMinBuckets = none := by
  obtain ⟨full, inserts, saturating⟩ :=
    InsertAll_range_saturating (kMinBuckets - 1) (by decide)
  refine ⟨by norm_num, by norm_num, by norm_num, full, inserts, ?_,
    insert_full_none saturating⟩
  rw [saturating.size, NumBuckets_identity le_rfl saturating.slots]

end ArtRuntime.Base.HashSet
