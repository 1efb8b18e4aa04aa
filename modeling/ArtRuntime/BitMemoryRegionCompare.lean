import ArtRuntime.BitMemoryRegion
import ArtRuntime.Bits.Runs

namespace ArtRuntime.Base

open ArtRuntime.Bits

/-!
# Reading a whole `BitMemoryRegion`: counts, emptiness and comparison

`bit_memory_region.h`: `PopCount`, `HasAllBitsClear`, `HasSomeBitSet`,
`Compare` and `Equals`, each one `VisitChunks` over a region with a visitor
that reads the chunk and, for the comparisons, the same bits of the other
region through `LoadBits`.

Which chunks a visit makes depends on where the region starts in its word,
and for `Compare` and `Equals` on where the left region starts.  The results
do not: each is a function of the region's size and its bits `regionBits`
(`PopCount_eq`, `HasAllBitsClear_iff`, `Equals_iff`, `Compare_eq`).
`Compare` is the three-way comparison of `orderKey`, the size and then the
bits with a set bit before a clear one, so it is antisymmetric, transitive
and zero exactly on equal regions.
-/

namespace BitMemoryRegion

/-- `POPCOUNT(x)`. -/
def POPCOUNT {w : Nat} (x : BitVec w) : Nat := x.cpop.toNat

/-- `CTZ(x)`, for a nonzero `x`. -/
def CTZ {w : Nat} (x : BitVec w) : Nat := x.ctz.toNat

variable (size_t : UnsignedType) (memory : Nat → BitVec 8)

/-- `PopCount()`: the set bits of every chunk, added up. -/
def PopCount (region : BitMemoryRegion) : Nat :=
  (VisitChunks size_t region (fun _ => memory)
    (fun result _ _ value => (result + POPCOUNT value, true)) 0).1

/-- `HasAllBitsClear()`: the visit goes through when every chunk is zero. -/
def HasAllBitsClear (region : BitMemoryRegion) : Bool :=
  (VisitChunks size_t region (fun _ => memory) (fun state _ _ value => (state, value == 0)) ()).2

def HasSomeBitSet (region : BitMemoryRegion) : Bool :=
  !HasAllBitsClear size_t memory region

/-- `Compare(lhs, rhs)`: the sizes first; then each chunk of `lhs` against the
same bits of `rhs`, until a chunk differs. -/
def Compare (lhs rhs : BitMemoryRegion) : Int :=
  if lhs.bit_size_ ≠ rhs.bit_size_ then
    if lhs.bit_size_ < rhs.bit_size_ then -1 else 1
  else
    (VisitChunks size_t lhs (fun _ => memory) (fun result offset num_bits lhs_value =>
      let rhs_value := rhs.LoadBits size_t memory offset num_bits
      if lhs_value = rhs_value then (result, true)
      else
        -- To avoid the comparison being dependent on how the region is split into
        -- chunks, check the lowest bit that differs.
        let bit := CTZ (lhs_value ^^^ rhs_value)
        (if (rhs_value >>> bit) &&& 1 ≠ 0 then 1 else -1, false)) 0).1

/-- `Equals(lhs, rhs)`. -/
def Equals (lhs rhs : BitMemoryRegion) : Bool :=
  if lhs.bit_size_ ≠ rhs.bit_size_ then false
  else
    (VisitChunks size_t lhs (fun _ => memory) (fun state offset num_bits lhs_value =>
      (state, lhs_value == rhs.LoadBits size_t memory offset num_bits)) ()).2

/-! ### What the queries are about -/

/-- The region's bits, first bit first. -/
def regionBits (region : BitMemoryRegion) : List Bool :=
  bitList (bitAt memory) region.origin region.bit_size_

/-- What `Compare` orders regions by: the size, then the bits, with a set bit
before a clear one where they first differ. -/
def orderKey (region : BitMemoryRegion) : Lex (Nat × List Bool) :=
  toLex (region.bit_size_, (regionBits memory region).map not)

variable {size_t memory}

theorem mem_regionBits_iff {region : BitMemoryRegion} {bit : Bool} :
    bit ∈ regionBits memory region ↔
      ∃ j < region.bit_size_, bitAt memory (region.origin + j) = bit := by
  simp [regionBits, bitList]

theorem regionBits_eq_iff {lhs rhs : BitMemoryRegion} (sameSize : lhs.bit_size_ = rhs.bit_size_) :
    regionBits memory lhs = regionBits memory rhs ↔
      ∀ j < lhs.bit_size_, bitAt memory (lhs.origin + j) = bitAt memory (rhs.origin + j) := by
  rw [regionBits, regionBits, ← sameSize, bitList_eq_iff]

/-- Regions of one size whose bits first differ at `i` are ordered by the bit
of `rhs` there: a set bit makes `lhs` the greater. -/
theorem compareSign_orderKey_of_first_difference {lhs rhs : BitMemoryRegion}
    (sameSize : lhs.bit_size_ = rhs.bit_size_) {i : Nat} (inside : i < lhs.bit_size_)
    (agree : ∀ j < i, bitAt memory (lhs.origin + j) = bitAt memory (rhs.origin + j))
    (differs : bitAt memory (lhs.origin + i) ≠ bitAt memory (rhs.origin + i)) :
    compareSign (orderKey memory lhs) (orderKey memory rhs) =
      if bitAt memory (rhs.origin + i) then 1 else -1 := by
  set left := (regionBits memory lhs).map not
  set right := (regionBits memory rhs).map not
  have inLeft : i < left.length := by simpa [left, regionBits] using inside
  have inRight : i < right.length := by simpa [right, regionBits, ← sameSize] using inside
  have prefixes : left.take i = right.take i := by
    apply List.ext_getElem (by simp [left, right, regionBits, sameSize])
    intro j inLeftTake _
    simp only [List.length_take] at inLeftTake
    simp [left, right, regionBits, agree j (by omega)]
  have differsAt : left[i] ≠ right[i] := by simpa [left, right, regionBits] using differs
  have ordered := lt_iff_of_take_eq inLeft inRight prefixes differsAt
  have keys : ∀ {a b : List Bool}, toLex (lhs.bit_size_, a) < toLex (rhs.bit_size_, b) ↔ a < b := by
    intro a b
    simp [Prod.Lex.toLex_lt_toLex, sameSize]
  have keysSwapped : ∀ {a b : List Bool},
      toLex (rhs.bit_size_, a) < toLex (lhs.bit_size_, b) ↔ a < b := by
    intro a b
    simp [Prod.Lex.toLex_lt_toLex, sameSize]
  -- The bit of `rhs` at the first difference decides which key is the smaller.
  cases rightBit : bitAt memory (rhs.origin + i)
  · have less : left < right := ordered.mpr (by simp [right, regionBits, rightBit])
    simp [compareSign, show orderKey memory lhs < orderKey memory rhs from keys.mpr less]
  · have notLess : ¬left < right := fun less => by
      simpa [right, regionBits, rightBit] using ordered.mp less
    have different : left ≠ right := fun same => differsAt (by simp [same])
    have greater : right < left := lt_of_le_of_ne (not_lt.mp notLess) different.symm
    have keyGreater : orderKey memory rhs < orderKey memory lhs := keysSwapped.mpr greater
    simp [compareSign, not_lt.mpr keyGreater.le, ne_of_gt keyGreater]

/-! ### One chunk -/

/-- `LoadBits` of a chunk is the field of the stream there. -/
theorem LoadBits_eq_ofNat (region : BitMemoryRegion) {bit_offset bit_length : Nat}
    (fits : bit_length ≤ size_t.width) :
    region.LoadBits size_t memory bit_offset bit_length =
      BitVec.ofNat size_t.width (bitField (bitAt memory) (region.origin + bit_offset) bit_length) := by
  apply BitVec.eq_of_toNat_eq
  rw [LoadBits_toNat size_t memory region fits, BitVec.toNat_ofNat, Nat.mod_eq_of_lt
    (lt_of_lt_of_le (bitField_lt _ _ _) (Nat.pow_le_pow_right (by decide) fits))]

/-- Two chunks at `offset` are equal when the regions' bits there are. -/
theorem ofNat_chunk_eq_iff {lhs rhs : BitMemoryRegion} {offset num_bits : Nat}
    (fits : num_bits ≤ size_t.width) :
    BitVec.ofNat size_t.width (bitField (bitAt memory) (lhs.origin + offset) num_bits) =
        BitVec.ofNat size_t.width (bitField (bitAt memory) (rhs.origin + offset) num_bits) ↔
      ∀ j < num_bits, bitAt memory (lhs.origin + (offset + j)) =
        bitAt memory (rhs.origin + (offset + j)) := by
  rw [ofNat_bitField_eq_iff fits, bitList_eq_iff]
  simp only [Nat.add_assoc]

/-- Bits that agree before `offset` and on the chunk after it agree before
its end. -/
theorem agree_of_chunk_eq {lhs rhs : BitMemoryRegion} {offset num_bits : Nat}
    (fits : num_bits ≤ size_t.width)
    (agree : ∀ j < offset, bitAt memory (lhs.origin + j) = bitAt memory (rhs.origin + j))
    (equal : BitVec.ofNat size_t.width (bitField (bitAt memory) (lhs.origin + offset) num_bits) =
        BitVec.ofNat size_t.width (bitField (bitAt memory) (rhs.origin + offset) num_bits)) :
    ∀ j < offset + num_bits, bitAt memory (lhs.origin + j) = bitAt memory (rhs.origin + j) := by
  intro j before
  by_cases early : j < offset
  · exact agree j early
  · have inChunk := (ofNat_chunk_eq_iff fits).mp equal (j - offset) (by omega)
    rwa [Nat.add_sub_cancel' (by omega)] at inChunk

/-- A chunk is zero when the region's bits there are clear. -/
theorem ofNat_chunk_eq_zero_iff {region : BitMemoryRegion} {offset num_bits : Nat}
    (fits : num_bits ≤ size_t.width) :
    BitVec.ofNat size_t.width (bitField (bitAt memory) (region.origin + offset) num_bits) = 0 ↔
      ∀ j < num_bits, bitAt memory (region.origin + (offset + j)) = false := by
  rw [ofNat_bitField_eq_zero_iff fits]
  simp [bitList, Nat.add_assoc]

/-! ### The queries are functions of the regions' bits -/

/-- `PopCount` counts the region's set bits, at every alignment.  The
invariant: the count so far is that of the bits visited. -/
theorem PopCount_eq (region : BitMemoryRegion) :
    PopCount size_t memory region = (regionBits memory region).count true := by
  obtain ⟨-, counted⟩ := @VisitChunks_invariant size_t Nat region (fun _ => memory)
    (fun result _ _ value => (result + POPCOUNT value, true))
    (fun offset result => result = (bitList (bitAt memory) region.origin offset).count true)
    (fun state offset num_bits _ _ fits _ holds => by
      refine ⟨rfl, ?_⟩
      rw [holds, bitList_add, List.count_append, POPCOUNT, toNat_cpop_ofNat_bitField fits])
    0 rfl
  exact counted

/-- `HasAllBitsClear` says that the region's bits are all clear, at every
alignment.  The visit stops at the first chunk with a set bit. -/
theorem HasAllBitsClear_iff (region : BitMemoryRegion) :
    HasAllBitsClear size_t memory region = true ↔ ∀ bit ∈ regionBits memory region, bit = false := by
  have outcome := @VisitChunks_rule size_t Unit region (fun _ => memory)
    (fun state _ _ value => (state, value == 0))
    (fun offset _ => ∀ j < offset, bitAt memory (region.origin + j) = false)
    (fun _ => ∃ j < region.bit_size_, bitAt memory (region.origin + j) = true)
    (fun state offset num_bits inside _ fits _ holds => by
      by_cases zero : BitVec.ofNat size_t.width
          (bitField (bitAt memory) (region.origin + offset) num_bits) = 0
      · -- A clear chunk: the bits visited so far are still all clear.
        refine Or.inl ⟨beq_iff_eq.mpr zero, fun j before => ?_⟩
        by_cases early : j < offset
        · exact holds j early
        · have inChunk := (ofNat_chunk_eq_zero_iff fits).mp zero (j - offset) (by omega)
          rwa [Nat.add_sub_cancel' (by omega)] at inChunk
      · -- A chunk with a set bit: the visit stops there.
        obtain ⟨j, inChunk, set⟩ : ∃ j < num_bits,
            bitAt memory (region.origin + (offset + j)) = true := by
          by_contra clear
          exact zero ((ofNat_chunk_eq_zero_iff fits).mpr fun j inChunk => by
            simpa using fun set => clear ⟨j, inChunk, set⟩)
        exact Or.inr ⟨beq_eq_false_iff_ne.mpr zero, offset + j, by omega, set⟩)
    () (fun j none => absurd none (Nat.not_lt_zero j))
  unfold HasAllBitsClear
  rcases outcome with ⟨went, clear⟩ | ⟨stopped, j, inside, set⟩
  · rw [went]
    simp only [true_iff]
    intro bit member
    obtain ⟨j, inside, rfl⟩ := mem_regionBits_iff.mp member
    exact clear j inside
  · rw [stopped]
    simp only [Bool.false_eq_true, false_iff, not_forall]
    exact ⟨true, mem_regionBits_iff.mpr ⟨j, inside, set⟩, by decide⟩

theorem HasSomeBitSet_iff (region : BitMemoryRegion) :
    HasSomeBitSet size_t memory region = true ↔ true ∈ regionBits memory region := by
  rw [HasSomeBitSet, Bool.not_eq_true', ← Bool.not_eq_true, HasAllBitsClear_iff]
  constructor
  · intro notClear
    by_contra absent
    exact notClear fun bit member => by
      cases bit
      · rfl
      · exact absurd member absent
  · intro present clear
    exact absurd (clear true present) (by decide)

/-- `Equals` says that the regions have one size and the same bits, at every
alignment of either. -/
theorem Equals_iff (lhs rhs : BitMemoryRegion) :
    Equals size_t memory lhs rhs = true ↔
      lhs.bit_size_ = rhs.bit_size_ ∧ regionBits memory lhs = regionBits memory rhs := by
  unfold Equals
  by_cases sameSize : lhs.bit_size_ = rhs.bit_size_
  swap
  · simp [sameSize]
  rw [if_neg (not_not.mpr sameSize), regionBits_eq_iff sameSize]
  have outcome := @VisitChunks_rule size_t Unit lhs (fun _ => memory)
    (fun state offset num_bits lhs_value =>
      (state, lhs_value == rhs.LoadBits size_t memory offset num_bits))
    (fun offset _ => ∀ j < offset, bitAt memory (lhs.origin + j) = bitAt memory (rhs.origin + j))
    (fun _ => ∃ j < lhs.bit_size_, bitAt memory (lhs.origin + j) ≠ bitAt memory (rhs.origin + j))
    (fun state offset num_bits inside _ fits _ holds => by
      rw [LoadBits_eq_ofNat rhs fits]
      by_cases equal : BitVec.ofNat size_t.width
          (bitField (bitAt memory) (lhs.origin + offset) num_bits) =
        BitVec.ofNat size_t.width (bitField (bitAt memory) (rhs.origin + offset) num_bits)
      · exact Or.inl ⟨beq_iff_eq.mpr equal, agree_of_chunk_eq fits holds equal⟩
      · -- Different chunks: some bit of the chunk differs.
        obtain ⟨-, -, differs⟩ := ctz_xor_ofNat_bitField fits equal
        refine Or.inr ⟨beq_eq_false_iff_ne.mpr equal, _, ?_, by simpa [Nat.add_assoc] using differs⟩
        have := (ctz_xor_ofNat_bitField fits equal).1
        omega)
    () (fun j none => absurd none (Nat.not_lt_zero j))
  rcases outcome with ⟨went, agree⟩ | ⟨stopped, j, inside, differs⟩
  · rw [went]
    exact ⟨fun _ => ⟨sameSize, agree⟩, fun _ => rfl⟩
  · rw [stopped]
    simp only [Bool.false_eq_true, false_iff, not_and, not_forall]
    exact fun _ => ⟨j, inside, differs⟩

/-- `Compare` is the three-way comparison of the regions' order keys, at every
alignment of either: the size first, then the lowest differing bit, a set
bit in `rhs` making `lhs` the greater.  The visit of `lhs` keeps the result at
zero over bits that agree, and stops at the first chunk that differs. -/
theorem Compare_eq (lhs rhs : BitMemoryRegion) :
    Compare size_t memory lhs rhs = compareSign (orderKey memory lhs) (orderKey memory rhs) := by
  unfold Compare
  by_cases sameSize : lhs.bit_size_ = rhs.bit_size_
  swap
  · -- Different sizes decide by the size alone.
    rw [if_pos sameSize]
    rcases Nat.lt_or_gt_of_ne sameSize with smaller | larger
    · have keyLess : orderKey memory lhs < orderKey memory rhs :=
        Prod.Lex.toLex_lt_toLex.mpr (Or.inl smaller)
      simp [smaller, compareSign, keyLess]
    · have keyGreater : orderKey memory rhs < orderKey memory lhs :=
        Prod.Lex.toLex_lt_toLex.mpr (Or.inl larger)
      simp [compareSign, not_lt.mpr larger.le, not_lt.mpr keyGreater.le, ne_of_gt keyGreater]
  rw [if_neg (not_not.mpr sameSize)]
  have outcome := @VisitChunks_rule size_t Int lhs (fun _ => memory)
    (fun result offset num_bits lhs_value =>
      let rhs_value := rhs.LoadBits size_t memory offset num_bits
      if lhs_value = rhs_value then (result, true)
      else
        let bit := CTZ (lhs_value ^^^ rhs_value)
        (if (rhs_value >>> bit) &&& 1 ≠ 0 then 1 else -1, false))
    (fun offset result => result = 0 ∧
      ∀ j < offset, bitAt memory (lhs.origin + j) = bitAt memory (rhs.origin + j))
    (fun result => result = compareSign (orderKey memory lhs) (orderKey memory rhs))
    (fun state offset num_bits inside _ fits _ holds => by
      obtain ⟨zero, agree⟩ := holds
      dsimp only
      rw [LoadBits_eq_ofNat rhs fits]
      by_cases equal : BitVec.ofNat size_t.width
          (bitField (bitAt memory) (lhs.origin + offset) num_bits) =
        BitVec.ofNat size_t.width (bitField (bitAt memory) (rhs.origin + offset) num_bits)
      · rw [if_pos equal]
        exact Or.inl ⟨rfl, zero, agree_of_chunk_eq fits agree equal⟩
      · -- The first differing chunk: its lowest differing bit is the regions' first.
        rw [if_neg equal]
        obtain ⟨inChunk, below, differs⟩ := ctz_xor_ofNat_bitField fits equal
        simp only [CTZ]
        set lowest := (BitVec.ofNat size_t.width
            (bitField (bitAt memory) (lhs.origin + offset) num_bits) ^^^
          BitVec.ofNat size_t.width (bitField (bitAt memory) (rhs.origin + offset) num_bits)).ctz.toNat
        refine Or.inr ⟨rfl, ?_⟩
        dsimp only
        have first := compareSign_orderKey_of_first_difference sameSize
          (by omega : offset + lowest < lhs.bit_size_)
          (fun j before => by
            rcases Nat.lt_or_ge j offset with early | late
            · exact agree j early
            · have inChunk := below (j - offset) (by omega)
              rwa [show lhs.origin + offset + (j - offset) = lhs.origin + j by omega,
                show rhs.origin + offset + (j - offset) = rhs.origin + j by omega] at inChunk)
          (by simpa [Nat.add_assoc] using differs)
        -- `(rhs_value >> bit) & 1` tests the bit of `rhs` at the first difference.
        have test : (BitVec.ofNat size_t.width
              (bitField (bitAt memory) (rhs.origin + offset) num_bits) >>> lowest) &&& 1 ≠ 0 ↔
            bitAt memory (rhs.origin + (offset + lowest)) = true := by
          rw [ushiftRight_and_one_ne_zero_iff _ (by have := size_t.eight_le_width; omega),
            getLsbD_ofNat_bitField fits]
          simp [inChunk, Nat.add_assoc]
        rw [first]
        exact if_congr test rfl rfl)
    0 ⟨rfl, fun j none => absurd none (Nat.not_lt_zero j)⟩
  rcases outcome with ⟨-, zero, agree⟩ | ⟨-, decided⟩
  · -- Every chunk agreed: the regions are equal.
    have same : orderKey memory lhs = orderKey memory rhs := by
      simp only [orderKey, sameSize, (regionBits_eq_iff sameSize).mpr agree]
    rw [zero, compareSign_eq_zero_iff.mpr same]
  · exact decided

/-! ### The laws of the comparison -/

theorem Compare_swap (lhs rhs : BitMemoryRegion) :
    Compare size_t memory lhs rhs = -Compare size_t memory rhs lhs := by
  rw [Compare_eq, Compare_eq, compareSign_swap]

theorem Compare_eq_zero_iff (lhs rhs : BitMemoryRegion) :
    Compare size_t memory lhs rhs = 0 ↔ Equals size_t memory lhs rhs = true := by
  have notInjective : Function.Injective not := fun _ _ same => by simpa using same
  rw [Compare_eq, compareSign_eq_zero_iff, Equals_iff, orderKey, orderKey, toLex_inj,
    Prod.mk.injEq, (List.map_injective_iff.mpr notInjective).eq_iff]

theorem Compare_nonpos_trans {a b c : BitMemoryRegion} (ab : Compare size_t memory a b ≤ 0)
    (bc : Compare size_t memory b c ≤ 0) : Compare size_t memory a c ≤ 0 := by
  rw [Compare_eq, compareSign_nonpos_iff] at ab bc ⊢
  exact ab.trans bc

theorem Compare_neg_trans {a b c : BitMemoryRegion} (ab : Compare size_t memory a b < 0)
    (bc : Compare size_t memory b c < 0) : Compare size_t memory a c < 0 := by
  rw [Compare_eq, compareSign_neg_iff] at ab bc ⊢
  exact ab.trans bc

/-- `Compare` is a total order on the regions' sizes and bits, whatever their
alignments, and `PopCount` and `HasAllBitsClear` read the bits as well. -/
theorem compare_is_order_on_bits (size_t : UnsignedType) (memory : Nat → BitVec 8) :
    (∀ lhs rhs : BitMemoryRegion,
      Compare size_t memory lhs rhs = compareSign (orderKey memory lhs) (orderKey memory rhs)) ∧
    (∀ (memory' : Nat → BitVec 8) (lhs rhs lhs' rhs' : BitMemoryRegion),
      regionBits memory lhs = regionBits memory' lhs' →
      regionBits memory rhs = regionBits memory' rhs' →
      Compare size_t memory lhs rhs = Compare size_t memory' lhs' rhs') ∧
    (∀ lhs rhs : BitMemoryRegion, lhs.bit_size_ = rhs.bit_size_ → ∀ i < lhs.bit_size_,
      (∀ j < i, bitAt memory (lhs.origin + j) = bitAt memory (rhs.origin + j)) →
      bitAt memory (lhs.origin + i) ≠ bitAt memory (rhs.origin + i) →
      Compare size_t memory lhs rhs = if bitAt memory (rhs.origin + i) then 1 else -1) ∧
    (∀ lhs rhs : BitMemoryRegion,
      Compare size_t memory lhs rhs = -Compare size_t memory rhs lhs) ∧
    (∀ lhs rhs : BitMemoryRegion,
      Compare size_t memory lhs rhs = 0 ↔ Equals size_t memory lhs rhs = true) ∧
    (∀ a b c : BitMemoryRegion, Compare size_t memory a b ≤ 0 → Compare size_t memory b c ≤ 0 →
      Compare size_t memory a c ≤ 0) ∧
    (∀ a b c : BitMemoryRegion, Compare size_t memory a b < 0 → Compare size_t memory b c < 0 →
      Compare size_t memory a c < 0) ∧
    (∀ region : BitMemoryRegion,
      PopCount size_t memory region = (regionBits memory region).count true) ∧
    (∀ region : BitMemoryRegion,
      HasAllBitsClear size_t memory region = true ↔
        ∀ bit ∈ regionBits memory region, bit = false) := by
  refine ⟨Compare_eq, ?_, ?_, Compare_swap, Compare_eq_zero_iff, fun _ _ _ => Compare_nonpos_trans,
    fun _ _ _ => Compare_neg_trans, PopCount_eq, HasAllBitsClear_iff⟩
  · -- The order keys are made of the sizes and the bits, the sizes being the bits' lengths.
    intro memory' lhs rhs lhs' rhs' sameLeft sameRight
    have keys : ∀ {region region' : BitMemoryRegion},
        regionBits memory region = regionBits memory' region' →
        orderKey memory region = orderKey memory' region' := by
      intro region region' same
      have sizes : region.bit_size_ = region'.bit_size_ := by
        simpa [regionBits] using congrArg List.length same
      simp only [orderKey, sizes, same]
    rw [Compare_eq, Compare_eq, keys sameLeft, keys sameRight]
  · intro lhs rhs sameSize i inside agree differs
    rw [Compare_eq]
    exact compareSign_orderKey_of_first_difference sameSize inside agree differs

end BitMemoryRegion

end ArtRuntime.Base
