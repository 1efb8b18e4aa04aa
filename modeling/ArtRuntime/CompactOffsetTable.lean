import ArtRuntime.Leb128
import ArtRuntime.BitMemoryRegionCompare

namespace ArtRuntime.Dex

open ArtRuntime.Base ArtRuntime.Bits ArtRuntime.FixedWidth
open ArtRuntime.Base.BitMemoryRegion (POPCOUNT)

/-!
# The compact offset table

`compact_offset_table.cc` stores one `uint32_t` offset per index, most of them
zero, in blocks of `kElementsPerIndex` indices.  A block is a big-endian
16-bit mask of the indices whose offset is non-zero, then one LEB128 delta for
each of them, from the minimum non-zero offset and then from the previous one.
A table of `uint32_t` block positions follows the blocks, aligned to four
bytes.  `GetOffset` finds the block in the table, tests the index's bit of the
mask, counts the set bits up to it with a shifted `POPCOUNT` and adds up that
many deltas.

The main result, `GetOffset_Build`, is the round trip: every index reads back
the offset it was built from, whatever the offsets are, provided the data has
fewer than `2 ^ 32` bytes.  The block positions and the table offset are
`uint32_t`, and `GetOffset_Build_wraps` exhibits a table of
`16 * 52377650 + 1` offsets whose data passes `4 GiB`: its last offset reads
back as `0`.
-/

namespace CompactOffsetTable

def kElementsPerIndex : Nat := 16

/-- `reinterpret_cast<const uint32_t*>(memory + offset)[0]` on a
little-endian machine. -/
def loadWord (memory : List UInt8) (offset : Nat) : UInt32 :=
  (memory.getD offset 0).toUInt32 ||| ((memory.getD (offset + 1) 0).toUInt32 <<< 8) |||
    ((memory.getD (offset + 2) 0).toUInt32 <<< 16) ||| ((memory.getD (offset + 3) 0).toUInt32 <<< 24)

/-- The bytes of a `uint32_t` as a little-endian machine stores them. -/
def wordBytes (value : UInt32) : List UInt8 :=
  [value.toUInt8, (value >>> 8).toUInt8, (value >>> 16).toUInt8, (value >>> 24).toUInt8]

/-! ### Reading -/

/-- An accessor's pointers, as positions in memory. -/
structure Accessor where
  table_ : Nat
  minimum_offset_ : UInt32
  data_begin_ : Nat
  deriving DecidableEq, Repr

/-- `Accessor(data_begin, minimum_offset, table_offset)`. -/
def Accessor.make (data_begin : Nat) (minimum_offset table_offset : UInt32) : Accessor :=
  ⟨data_begin + table_offset.toNat, minimum_offset, data_begin⟩

/-- `Accessor(data_begin)`: the minimum and the table offset are the two words
at `data_begin`, and the data follows them. -/
def Accessor.ofHeader (memory : List UInt8) (data_begin : Nat) : Accessor :=
  Accessor.make (data_begin + 2 * 4) (loadWord memory data_begin) (loadWord memory (data_begin + 4))

/-- The `do`/`while` loop of `GetOffset`: `count` deltas decoded from
`block`, each added to `current_offset`.  The loop runs once more than its
test; it is entered with `count > 0`, the index's own bit being set. -/
def GetOffsetLoop (memory : List UInt8) (block : Nat) (current_offset : UInt32) : Nat → UInt32
  | 0 => current_offset
  | count + 1 =>
    let decoded := DecodeUnsignedLeb128 32 fun i => memory.getD (block + i) 0
    GetOffsetLoop memory (block + decoded.2) (current_offset + UInt32.ofBitVec decoded.1) count

/-- `GetOffset(index)` on a 64-bit machine: `uintptr_t` has 64 bits. -/
def Accessor.GetOffset (this : Accessor) (memory : List UInt8) (index : UInt32) : UInt32 :=
  let offset := loadWord memory (this.table_ + 4 * (index.toNat / kElementsPerIndex))
  let bit_index := index.toNat % kElementsPerIndex
  let block := this.data_begin_ + offset.toNat
  let bit_mask : UInt16 :=
    ((memory.getD block 0).toUInt16 <<< 8) ||| (memory.getD (block + 1) 0).toUInt16
  if bit_mask.toNat &&& (1 <<< bit_index) = 0 then
    -- Bit is not set means the offset is 0.
    0
  else
    -- Trim off the bits above the index and count the set ones: the number
    -- of deltas to decode.
    let count := POPCOUNT (BitVec.ofNat 64 bit_mask.toNat <<< (64 - 1 - bit_index))
    GetOffsetLoop memory (block + 2) this.minimum_offset_ count

/-! ### Building -/

/-- The minimum of the non-zero offsets, `UINT32_MAX` if there is none. -/
def minimumOffset (offsets : List UInt32) : UInt32 :=
  offsets.foldl (fun out_min_offset offset =>
    if offset ≠ 0 then min out_min_offset offset else out_min_offset) 0xffffffff

/-- The mask loop of `Build` from the block's `i`-th offset: bit `i` is set
for a non-zero offset. -/
def blockMaskLoop (i : Nat) (bit_mask : UInt16) : List UInt32 → UInt16
  | [] => bit_mask
  | offset :: rest =>
    blockMaskLoop (i + 1) (if offset ≠ 0 then bit_mask ||| (1 <<< i.toUInt16) else bit_mask) rest

/-- The delta loop of `Build`: each non-zero offset is written relative to
the previous one. -/
def writeDeltas (out_data : List UInt8) (prev_offset : UInt32) : List UInt32 → List UInt8
  | [] => out_data
  | offset :: rest =>
    if offset ≠ 0 then
      let delta := offset - prev_offset
      writeDeltas (EncodeUnsignedLeb128ToVector out_data (delta.toBitVec.setWidth 64)) offset rest
    else
      writeDeltas out_data prev_offset rest

/-- The block loop of `Build` from `block_start`: the data and the offset
table written so far. -/
def BuildBlocks (offsets : List UInt32) (out_min_offset : UInt32) (block_start : Nat)
    (out_data : List UInt8) (offset_table : List UInt32) : List UInt8 × List UInt32 :=
  if block_start < offsets.length then
    -- Write the offset of the block for each block.
    let offset_table := offset_table ++ [UInt32.ofNat out_data.length]
    let block_size := min (offsets.length - block_start) kElementsPerIndex
    let block := (offsets.drop block_start).take block_size
    let bit_mask := blockMaskLoop 0 0 block
    let out_data := out_data ++ [(bit_mask >>> 8).toUInt8, bit_mask.toUInt8]
    let out_data := writeDeltas out_data out_min_offset block
    BuildBlocks offsets out_min_offset (block_start + block_size) out_data offset_table
  else
    (out_data, offset_table)
termination_by offsets.length - block_start
decreasing_by
  have : kElementsPerIndex = 16 := rfl
  omega

/-- `AlignmentPadVector(dest, alignment)`: zeros up to a multiple of
`alignment`. -/
def AlignmentPadVector (dest : List UInt8) (alignment : Nat) : List UInt8 :=
  dest ++ List.replicate ((alignment - dest.length % alignment) % alignment) 0

/-- `Build(offsets, &out_data, &out_min_offset, &out_table_offset)`: the data,
the minimum offset and the table offset. -/
def Build (offsets : List UInt32) : List UInt8 × UInt32 × UInt32 :=
  let out_min_offset := minimumOffset offsets
  let written := BuildBlocks offsets out_min_offset 0 [] []
  -- Write the offset table.
  let out_data := AlignmentPadVector written.1 4
  (out_data ++ written.2.flatMap wordBytes, out_min_offset, UInt32.ofNat out_data.length)

/-- `Build(offsets, &out_data)`: the two offsets written before the data. -/
def BuildWithHeader (offsets : List UInt32) : List UInt8 :=
  wordBytes (Build offsets).2.1 ++ wordBytes (Build offsets).2.2 ++ (Build offsets).1

section Words

/-! ### Words in memory -/

/-- Four bytes read as a little-endian word. -/
theorem toNat_loadWord (memory : List UInt8) (offset : Nat) :
    (loadWord memory offset).toNat =
      (memory.getD offset 0).toNat + (memory.getD (offset + 1) 0).toNat * 2 ^ 8 +
        (memory.getD (offset + 2) 0).toNat * 2 ^ 16 + (memory.getD (offset + 3) 0).toNat * 2 ^ 24 := by
  have b0 := (memory.getD offset 0).toNat_lt
  have b1 := (memory.getD (offset + 1) 0).toNat_lt
  have b2 := (memory.getD (offset + 2) 0).toNat_lt
  have b3 := (memory.getD (offset + 3) 0).toNat_lt
  simp only [loadWord, UInt32.toNat_or, UInt32.toNat_shiftLeft, UInt8.toNat_toUInt32,
    Nat.shiftLeft_eq, show (8 : UInt32).toNat % 32 = 8 from rfl,
    show (16 : UInt32).toNat % 32 = 16 from rfl, show (24 : UInt32).toNat % 32 = 24 from rfl]
  -- Each byte is below the next one's place, so every `|||` is a sum.
  rw [Nat.mod_eq_of_lt (show (memory.getD (offset + 1) 0).toNat * 2 ^ 8 < 2 ^ 32 by omega),
    Nat.mod_eq_of_lt (show (memory.getD (offset + 2) 0).toNat * 2 ^ 16 < 2 ^ 32 by omega),
    Nat.mod_eq_of_lt (show (memory.getD (offset + 3) 0).toNat * 2 ^ 24 < 2 ^ 32 by omega),
    or_lead_eq_add (k := 8) (by omega), or_lead_eq_add (k := 16) (by omega),
    or_lead_eq_add (k := 24) (by omega)]
  omega

/-- A word stored and loaded again. -/
theorem loadWord_wordBytes (pre post : List UInt8) (value : UInt32) :
    loadWord (pre ++ wordBytes value ++ post) pre.length = value := by
  apply UInt32.toNat_inj.mp
  have below := value.toNat_lt
  rw [toNat_loadWord]
  simp [wordBytes, UInt32.toNat_shiftRight]
  omega

@[simp] theorem length_wordBytes (value : UInt32) : (wordBytes value).length = 4 := rfl

theorem length_flatMap_wordBytes (table : List UInt32) :
    (table.flatMap wordBytes).length = 4 * table.length := by
  induction table with
  | nil => rfl
  | cons value rest inductionHypothesis =>
    simp only [List.flatMap_cons, List.length_append, length_wordBytes, inductionHypothesis,
      List.length_cons]
    omega

/-- The `j`-th word of a table of words. -/
theorem loadWord_table (pre post : List UInt8) {table : List UInt32} {j : Nat}
    (inside : j < table.length) :
    loadWord (pre ++ table.flatMap wordBytes ++ post) (pre.length + 4 * j) = table[j] := by
  have split : table = table.take j ++ table[j] :: table.drop (j + 1) := by
    rw [List.getElem_cons_drop, List.take_append_drop]
  have placed : pre ++ table.flatMap wordBytes ++ post =
      (pre ++ (table.take j).flatMap wordBytes) ++ wordBytes table[j] ++
        ((table.drop (j + 1)).flatMap wordBytes ++ post) := by
    conv_lhs => rw [split]
    simp only [List.flatMap_append, List.flatMap_cons, List.append_assoc]
  have position : pre.length + 4 * j = (pre ++ (table.take j).flatMap wordBytes).length := by
    rw [List.length_append, length_flatMap_wordBytes, List.length_take,
      Nat.min_eq_left (Nat.le_of_lt inside)]
  rw [placed, position, loadWord_wordBytes]

/-- A byte of memory inside what is known to stand at a position. -/
theorem getD_of_drop {memory bytes rest : List UInt8} {position : Nat}
    (holds : memory.drop position = bytes ++ rest) {i : Nat} (inside : i < bytes.length) :
    memory.getD (position + i) 0 = bytes[i] := by
  have dropped : memory.getD (position + i) 0 = (memory.drop position).getD i 0 := by
    simp [List.getD_eq_getElem?_getD, List.getElem?_drop]
  rw [dropped, holds, List.getD_append _ _ _ _ inside, List.getD_eq_getElem]

end Words

section Mask

/-! ### The mask of a block -/

theorem toNat_one_shiftLeft {i : Nat} (small : i < 16) :
    ((1 : UInt16) <<< i.toUInt16).toNat = 2 ^ i := by
  rw [UInt16.toNat_shiftLeft, Nat.toUInt16_eq, UInt16.toNat_ofNat',
    Nat.mod_eq_of_lt (by omega : i < 2 ^ 16), Nat.mod_eq_of_lt small,
    show (1 : UInt16).toNat = 1 from rfl, Nat.one_shiftLeft]
  exact Nat.mod_eq_of_lt (Nat.pow_lt_pow_right (by decide) small)

/-- The mask loop sets bit `i + k` for the `k`-th offset of the block when it
is non-zero, and no other bit. -/
theorem testBit_blockMaskLoop {i : Nat} {bit_mask : UInt16} {block : List UInt32}
    (fits : i + block.length ≤ 16) (j : Nat) :
    (blockMaskLoop i bit_mask block).toNat.testBit j =
      (bit_mask.toNat.testBit j || (decide (i ≤ j) && decide (block.getD (j - i) 0 ≠ 0))) := by
  induction block generalizing i bit_mask with
  | nil => simp [blockMaskLoop]
  | cons offset rest inductionHypothesis =>
    simp only [List.length_cons] at fits
    rw [blockMaskLoop, inductionHypothesis (by omega)]
    have setBit : ∀ m : UInt16, (m ||| 1 <<< i.toUInt16).toNat.testBit j =
        (m.toNat.testBit j || decide (i = j)) := by
      intro m
      rw [UInt16.toNat_or, Nat.testBit_or, toNat_one_shiftLeft (by omega), Nat.testBit_two_pow]
    have offsetAt : (offset :: rest).getD (j - i) 0 =
        if j ≤ i then offset else rest.getD (j - (i + 1)) 0 := by
      by_cases atMost : j ≤ i
      · rw [if_pos atMost, Nat.sub_eq_zero_of_le atMost, List.getD_cons_zero]
      · rw [if_neg atMost, show j - i = (j - (i + 1)) + 1 by omega, List.getD_cons_succ]
    rw [offsetAt]
    -- The offset decides bit `i`; the rest of the block the bits above it.
    by_cases zero : offset = 0
    · rw [if_neg (not_not.mpr zero)]
      rcases Nat.lt_trichotomy j i with below | here | above
      · simp [Nat.not_le_of_lt below, Nat.not_le_of_lt (Nat.lt_succ_of_lt below)]
      · simp [here, zero]
      · simp [Nat.le_of_lt above, Nat.succ_le_of_lt above, Nat.not_le_of_lt above]
    · rw [if_pos zero, setBit]
      rcases Nat.lt_trichotomy j i with below | here | above
      · simp [Nat.ne_of_gt below, Nat.not_le_of_lt below, Nat.not_le_of_lt (Nat.lt_succ_of_lt below)]
      · simp [here, zero]
      · simp [Nat.ne_of_lt above, Nat.le_of_lt above, Nat.succ_le_of_lt above,
          Nat.not_le_of_lt above]

/-- The mask `Build` writes for a block: bit `k` for its `k`-th offset when it
is non-zero. -/
theorem testBit_blockMask {block : List UInt32} (fits : block.length ≤ 16) (j : Nat) :
    (blockMaskLoop 0 0 block).toNat.testBit j = decide (block.getD j 0 ≠ 0) := by
  rw [testBit_blockMaskLoop (by omega)]
  simp

/-- The two bytes of a mask, high byte first, read back. -/
theorem mask_bytes (bit_mask : UInt16) :
    ((bit_mask >>> 8).toUInt8.toUInt16 <<< 8 ||| bit_mask.toUInt8.toUInt16) = bit_mask := by
  apply UInt16.toNat_inj.mp
  have below := bit_mask.toNat_lt
  simp only [UInt16.toNat_or, UInt16.toNat_shiftLeft, UInt8.toNat_toUInt16, UInt16.toNat_toUInt8,
    UInt16.toNat_shiftRight, show (8 : UInt16).toNat % 16 = 8 from rfl, Nat.shiftLeft_eq,
    Nat.shiftRight_eq_div_pow]
  rw [Nat.mod_eq_of_lt (show bit_mask.toNat / 2 ^ 8 % 2 ^ 8 * 2 ^ 8 < 2 ^ 16 by omega),
    or_eq_add_of_lt (k := 8) (Nat.mod_lt _ (by decide))]
  omega

/-- The shifted population count of `GetOffset`: the set bits of the mask up
to `bit_index`, the bits above it shifted out of the word. -/
theorem POPCOUNT_shiftLeft (bit_mask : Nat) {bit_index : Nat} (inside : bit_index < 16) :
    POPCOUNT (BitVec.ofNat 64 bit_mask <<< (64 - 1 - bit_index)) =
      (List.range (bit_index + 1)).countP (bit_mask.testBit ·) := by
  have split : List.range 64 = List.range (64 - 1 - bit_index) ++
      (List.range (bit_index + 1)).map ((64 - 1 - bit_index) + ·) := by
    rw [← List.range_add]
    congr 1
    omega
  unfold POPCOUNT
  rw [BitVec.toNat_cpop, cpopNatRec_zero_eq_countP, split, List.countP_append, List.countP_map]
  -- The low bits of the shifted word are clear; the others are the mask's.
  have shiftedOut : (List.range (64 - 1 - bit_index)).countP
      (fun j => (BitVec.ofNat 64 bit_mask <<< (64 - 1 - bit_index)).getLsbD j) = 0 :=
    List.countP_eq_zero.mpr fun j inRange => by
      simp [BitVec.getLsbD_shiftLeft, List.mem_range.mp inRange]
  rw [shiftedOut, Nat.zero_add]
  apply List.countP_congr
  intro j inRange
  have below := List.mem_range.mp inRange
  simp [BitVec.getLsbD_shiftLeft, BitVec.getLsbD_ofNat, show j < 64 by omega,
    show 64 - 1 - bit_index + j < 64 by omega]

/-- The count of set bits of a block's mask up to `n` is the count of its
non-zero offsets among the first `n`. -/
theorem countP_testBit_blockMask {block : List UInt32} (fits : block.length ≤ 16) (n : Nat) :
    (List.range n).countP ((blockMaskLoop 0 0 block).toNat.testBit ·) =
      (block.take n).countP (· ≠ 0) := by
  induction n with
  | zero => simp
  | succ n inductionHypothesis =>
    rw [List.range_succ, List.countP_append, inductionHypothesis, List.take_add_one,
      List.countP_append]
    congr 1
    cases atN : block[n]? with
    | none => simp [testBit_blockMask fits, List.getD_eq_getElem?_getD, atN]
    | some offset => simp [testBit_blockMask fits, List.getD_eq_getElem?_getD, atN]

end Mask

section Deltas

/-! ### The deltas of a block -/

theorem EncodeUnsignedLeb128ToVector_append (dest : List UInt8) (value : BitVec 64) :
    EncodeUnsignedLeb128ToVector dest value = dest ++ EncodeUnsignedLeb128ToVector [] value := rfl

/-- The delta loop appends to what was written. -/
theorem writeDeltas_append (out_data : List UInt8) (prev_offset : UInt32) (block : List UInt32) :
    writeDeltas out_data prev_offset block = out_data ++ writeDeltas [] prev_offset block := by
  induction block generalizing out_data prev_offset with
  | nil => simp [writeDeltas]
  | cons offset rest inductionHypothesis =>
    by_cases zero : offset = 0
    · rw [writeDeltas, writeDeltas, if_neg (not_not.mpr zero), if_neg (not_not.mpr zero),
        inductionHypothesis]
    · rw [writeDeltas, writeDeltas, if_pos zero, if_pos zero, inductionHypothesis,
        inductionHypothesis (EncodeUnsignedLeb128ToVector [] _),
        EncodeUnsignedLeb128ToVector_append, List.append_assoc]

/-- The delta `Build` writes is the LEB128 encoding of its value. -/
theorem EncodeUnsignedLeb128ToVector_delta (delta : UInt32) :
    EncodeUnsignedLeb128ToVector [] (delta.toBitVec.setWidth 64) = encodeNat delta.toNat := by
  rw [EncodeUnsignedLeb128ToVector, List.nil_append, ← EncodeUnsignedLeb128,
    EncodeUnsignedLeb128_eq, BitVec.toNat_setWidth, UInt32.toNat_toBitVec,
    Nat.mod_eq_of_lt (Nat.lt_trans delta.toNat_lt (by decide))]

/-- A delta `Build` wrote decodes to itself. -/
theorem DecodeUnsignedLeb128_delta {memory : List UInt8} {position : Nat} {delta : UInt32}
    {rest : List UInt8} (holds : memory.drop position = encodeNat delta.toNat ++ rest) :
    DecodeUnsignedLeb128 32 (fun i => memory.getD (position + i) 0) =
      (delta.toBitVec, (encodeNat delta.toNat).length) := by
  have reads : HoldsAt (fun i => memory.getD (position + i) 0) 0 (encodeNat delta.toNat) := by
    intro i inside
    dsimp only
    rw [Nat.zero_add, getD_of_drop holds inside]
  rw [DecodeUnsignedLeb128, DecodeLeb128Helper_encodeNat (by decide) delta.toNat_lt reads
    (by simp)]
  simp

/-- The decode loop of `GetOffset` over the deltas of a block: as many deltas
as the block has non-zero offsets up to `b` add up to the `b`-th offset. -/
theorem GetOffsetLoop_writeDeltas (memory : List UInt8) (block : List UInt32) :
    ∀ {position : Nat} {prev_offset : UInt32} {rest : List UInt8} {b : Nat},
      memory.drop position = writeDeltas [] prev_offset block ++ rest →
      (inside : b < block.length) → block[b] ≠ 0 →
      GetOffsetLoop memory position prev_offset ((block.take (b + 1)).countP (· ≠ 0)) =
        block[b] := by
  induction block with
  | nil => intro _ _ _ b _ inside; simp at inside
  | cons offset more inductionHypothesis =>
    intro position prev_offset rest b holds inside nonzero
    by_cases zero : offset = 0
    · -- A zero offset writes no delta and counts for nothing.
      rw [writeDeltas, if_neg (not_not.mpr zero)] at holds
      cases b with
      | zero => exact absurd zero nonzero
      | succ b =>
        simp only [List.take_succ_cons, List.countP_cons, zero, ne_eq, not_true_eq_false,
          decide_false]
        exact inductionHypothesis holds (by simpa using inside) nonzero
    · rw [writeDeltas, if_pos zero, writeDeltas_append, EncodeUnsignedLeb128ToVector_delta,
        List.append_assoc] at holds
      have decoded := DecodeUnsignedLeb128_delta holds
      have after : memory.drop (position + (encodeNat (offset - prev_offset).toNat).length) =
          writeDeltas [] offset more ++ rest := by
        rw [← List.drop_drop, holds, List.drop_left]
      have added : prev_offset + UInt32.ofBitVec (offset - prev_offset).toBitVec = offset := by
        rw [UInt32.ofBitVec_toBitVec]
        grind
      simp only [List.take_succ_cons, List.countP_cons, zero, ne_eq, not_false_eq_true,
        decide_true, if_true]
      rw [GetOffsetLoop, decoded]
      dsimp only
      rw [added]
      -- The offset's own delta is the last one decoded when `b = 0`.
      cases b with
      | zero => simp [GetOffsetLoop]
      | succ b => exact inductionHypothesis after (by simpa using inside) nonzero

end Deltas

section Layout

/-! ### The layout `Build` writes -/

/-- The `j`-th block of offsets. -/
def blockAt (offsets : List UInt32) (j : Nat) : List UInt32 :=
  (offsets.drop (kElementsPerIndex * j)).take kElementsPerIndex

/-- The bytes `Build` writes for one block: its mask, high byte first, then
its deltas. -/
def blockBytes (out_min_offset : UInt32) (block : List UInt32) : List UInt8 :=
  [(blockMaskLoop 0 0 block >>> 8).toUInt8, (blockMaskLoop 0 0 block).toUInt8] ++
    writeDeltas [] out_min_offset block

/-- The bytes of the first `n` blocks. -/
def blocksData (offsets : List UInt32) (out_min_offset : UInt32) (n : Nat) : List UInt8 :=
  (List.range n).flatMap fun j => blockBytes out_min_offset (blockAt offsets j)

/-- The positions of the first `n` blocks, as `Build` writes them. -/
def blockTable (offsets : List UInt32) (out_min_offset : UInt32) (n : Nat) : List UInt32 :=
  (List.range n).map fun j => UInt32.ofNat (blocksData offsets out_min_offset j).length

/-- The number of blocks. -/
def numBlocks (offsets : List UInt32) : Nat :=
  (offsets.length + kElementsPerIndex - 1) / kElementsPerIndex

theorem blocksData_succ (offsets : List UInt32) (out_min_offset : UInt32) (n : Nat) :
    blocksData offsets out_min_offset (n + 1) =
      blocksData offsets out_min_offset n ++ blockBytes out_min_offset (blockAt offsets n) := by
  simp [blocksData, List.range_succ]

theorem blockTable_succ (offsets : List UInt32) (out_min_offset : UInt32) (n : Nat) :
    blockTable offsets out_min_offset (n + 1) = blockTable offsets out_min_offset n ++
      [UInt32.ofNat (blocksData offsets out_min_offset n).length] := by
  simp [blockTable, List.range_succ]

/-- One pass of the block loop of `Build` appends the next block and its
position. -/
theorem BuildBlocks_blocks (offsets : List UInt32) (out_min_offset : UInt32) :
    ∀ k, k ≤ numBlocks offsets →
      BuildBlocks offsets out_min_offset (min (kElementsPerIndex * k) offsets.length)
          (blocksData offsets out_min_offset k) (blockTable offsets out_min_offset k) =
        (blocksData offsets out_min_offset (numBlocks offsets),
          blockTable offsets out_min_offset (numBlocks offsets)) := by
  have sixteen : kElementsPerIndex = 16 := rfl
  -- Induction on the number of blocks still to write.
  suffices remaining : ∀ r k, numBlocks offsets - k = r → k ≤ numBlocks offsets →
      BuildBlocks offsets out_min_offset (min (kElementsPerIndex * k) offsets.length)
          (blocksData offsets out_min_offset k) (blockTable offsets out_min_offset k) =
        (blocksData offsets out_min_offset (numBlocks offsets),
          blockTable offsets out_min_offset (numBlocks offsets)) from
    fun k within => remaining _ k rfl within
  intro r
  induction r with
  | zero =>
    intro k last within
    have done : k = numBlocks offsets := by omega
    have covered : offsets.length ≤ kElementsPerIndex * k := by
      rw [done, numBlocks, sixteen]
      omega
    rw [BuildBlocks, if_neg (by omega), done]
  | succ r inductionHypothesis =>
    intro k more within
    have started : kElementsPerIndex * k < offsets.length := by
      rw [numBlocks, sixteen] at more
      rw [sixteen]
      omega
    have block : (offsets.drop (min (kElementsPerIndex * k) offsets.length)).take
        (min (offsets.length - min (kElementsPerIndex * k) offsets.length) kElementsPerIndex) =
        blockAt offsets k := by
      rw [blockAt, Nat.min_eq_left (Nat.le_of_lt started)]
      by_cases short : offsets.length - kElementsPerIndex * k ≤ kElementsPerIndex
      · rw [Nat.min_eq_left short, List.take_of_length_le (by simp),
          List.take_of_length_le (by simp; omega)]
      · rw [Nat.min_eq_right (by omega)]
    have next : min (kElementsPerIndex * k) offsets.length +
        min (offsets.length - min (kElementsPerIndex * k) offsets.length) kElementsPerIndex =
        min (kElementsPerIndex * (k + 1)) offsets.length := by
      rw [sixteen] at started ⊢
      omega
    rw [BuildBlocks, if_pos (by omega)]
    dsimp only
    rw [block, next, writeDeltas_append, List.append_assoc, ← blockBytes, ← blocksData_succ,
      ← blockTable_succ]
    exact inductionHypothesis (k + 1) (by omega) (by omega)

/-- `Build` writes every block, pads, and writes the table of block
positions. -/
theorem Build_eq (offsets : List UInt32) :
    Build offsets =
      (AlignmentPadVector (blocksData offsets (minimumOffset offsets) (numBlocks offsets)) 4 ++
          (blockTable offsets (minimumOffset offsets) (numBlocks offsets)).flatMap wordBytes,
        minimumOffset offsets,
        UInt32.ofNat (AlignmentPadVector
          (blocksData offsets (minimumOffset offsets) (numBlocks offsets)) 4).length) := by
  have first := BuildBlocks_blocks offsets (minimumOffset offsets) 0 (Nat.zero_le _)
  simp only [Nat.mul_zero, Nat.zero_le, Nat.min_eq_left] at first
  rw [Build]
  rw [show blocksData offsets (minimumOffset offsets) 0 = [] from rfl,
    show blockTable offsets (minimumOffset offsets) 0 = [] from rfl] at first
  rw [first]

/-- The data of `n` blocks starts with that of the first `j`, then block `j`. -/
theorem blocksData_split (offsets : List UInt32) (out_min_offset : UInt32) {j n : Nat}
    (inside : j < n) : ∃ rest, blocksData offsets out_min_offset n =
      blocksData offsets out_min_offset j ++ blockBytes out_min_offset (blockAt offsets j) ++
        rest := by
  induction n with
  | zero => omega
  | succ n inductionHypothesis =>
    rw [blocksData_succ]
    rcases Nat.lt_succ_iff_lt_or_eq.mp inside with before | last
    · obtain ⟨rest, split⟩ := inductionHypothesis before
      exact ⟨rest ++ blockBytes out_min_offset (blockAt offsets n), by
        rw [split, List.append_assoc _ rest]⟩
    · exact ⟨[], by rw [last, List.append_nil]⟩

theorem length_blockTable (offsets : List UInt32) (out_min_offset : UInt32) (n : Nat) :
    (blockTable offsets out_min_offset n).length = n := by
  simp [blockTable]

theorem length_blockAt_le (offsets : List UInt32) (j : Nat) :
    (blockAt offsets j).length ≤ 16 := by
  simp only [blockAt, List.length_take]
  exact Nat.min_le_left _ _

/-- Offset `i` is offset `i % 16` of block `i / 16`. -/
theorem getElem_blockAt {offsets : List UInt32} {i : Nat} (inside : i < offsets.length) :
    ∃ within : i % kElementsPerIndex < (blockAt offsets (i / kElementsPerIndex)).length,
      (blockAt offsets (i / kElementsPerIndex))[i % kElementsPerIndex] = offsets[i] := by
  have sixteen : kElementsPerIndex = 16 := rfl
  have position : kElementsPerIndex * (i / kElementsPerIndex) + i % kElementsPerIndex = i :=
    Nat.div_add_mod i kElementsPerIndex
  have within : i % kElementsPerIndex < (blockAt offsets (i / kElementsPerIndex)).length := by
    simp only [blockAt, List.length_take, List.length_drop]
    rw [sixteen] at position ⊢
    omega
  refine ⟨within, ?_⟩
  simp only [blockAt, List.getElem_take, List.getElem_drop, position]

theorem div_lt_numBlocks {offsets : List UInt32} {i : Nat} (inside : i < offsets.length) :
    i / kElementsPerIndex < numBlocks offsets := by
  rw [numBlocks, show kElementsPerIndex = 16 from rfl]
  omega

end Layout

section RoundTrip

/-! ### Reading back what `Build` wrote -/

/-- `GetOffset` on a block as `Build` writes it: when the index's table entry
points at the block, the index reads back its offset in the block. -/
theorem GetOffset_of_block {this : Accessor} {memory : List UInt8} {index : UInt32}
    {position : Nat} {block : List UInt32} {rest : List UInt8}
    (entry : this.data_begin_ +
      (loadWord memory (this.table_ + 4 * (index.toNat / kElementsPerIndex))).toNat = position)
    (holds : memory.drop position = blockBytes this.minimum_offset_ block ++ rest)
    (fits : block.length ≤ 16) (within : index.toNat % kElementsPerIndex < block.length) :
    this.GetOffset memory index = block[index.toNat % kElementsPerIndex] := by
  have high : memory.getD position 0 = (blockMaskLoop 0 0 block >>> 8).toUInt8 := by
    rw [← Nat.add_zero position, getD_of_drop holds (by simp [blockBytes])]
    rfl
  have low : memory.getD (position + 1) 0 = (blockMaskLoop 0 0 block).toUInt8 :=
    getD_of_drop holds (i := 1) (by simp [blockBytes])
  have deltas : memory.drop (position + 2) = writeDeltas [] this.minimum_offset_ block ++ rest := by
    rw [← List.drop_drop, holds, blockBytes, List.append_assoc]
    rfl
  have bit_index : index.toNat % kElementsPerIndex < 16 := Nat.lt_of_lt_of_le within fits
  rw [Accessor.GetOffset]
  dsimp only
  rw [entry, high, low, mask_bytes, Nat.one_shiftLeft, Nat.and_two_pow, testBit_blockMask fits,
    List.getD_eq_getElem _ _ within]
  -- The mask's bit says whether the offset is zero; the deltas up to it add
  -- up to the offset.
  by_cases zero : block[index.toNat % kElementsPerIndex] = 0
  · simp [zero]
  · rw [if_neg (by simp [zero]), POPCOUNT_shiftLeft _ bit_index,
      countP_testBit_blockMask fits]
    exact GetOffsetLoop_writeDeltas memory block deltas within zero

/-- The round trip wherever the data stands in memory: while the data has
fewer than `2 ^ 32` bytes, the table offset and every block position are the
true ones, and every index reads back its offset. -/
theorem GetOffset_Build_at (pre post : List UInt8) {offsets : List UInt32}
    (fits : (Build offsets).1.length < 2 ^ 32) {index : UInt32}
    (inside : index.toNat < offsets.length) :
    (Accessor.make pre.length (Build offsets).2.1 (Build offsets).2.2).GetOffset
      (pre ++ (Build offsets).1 ++ post) index = offsets[index.toNat] := by
  obtain ⟨within, picked⟩ := getElem_blockAt inside
  have blockInside := div_lt_numBlocks inside
  rw [Build_eq] at fits ⊢
  dsimp only at fits ⊢
  -- Name the pieces of the data: the blocks, their padding and the table.
  set out_min_offset := minimumOffset offsets
  set j := index.toNat / kElementsPerIndex
  set n := numBlocks offsets
  obtain ⟨rest, split⟩ := blocksData_split offsets out_min_offset blockInside
  set table := blockTable offsets out_min_offset n with tableIs
  set data := blocksData offsets out_min_offset n
  have tableLength : j < table.length := by rw [tableIs, length_blockTable]; exact blockInside
  have entryIs : table[j] = UInt32.ofNat (blocksData offsets out_min_offset j).length := by
    simp [tableIs, blockTable]
  have padded : (AlignmentPadVector data 4).length < 2 ^ 32 := by
    simp only [List.length_append] at fits
    omega
  have positionFits : (blocksData offsets out_min_offset j).length < 2 ^ 32 := by
    have before : (blocksData offsets out_min_offset j).length ≤ data.length := by
      rw [split]
      simp only [List.length_append]
      omega
    have padding : data.length ≤ (AlignmentPadVector data 4).length := by
      simp [AlignmentPadVector]
    omega
  rw [← picked]
  refine @GetOffset_of_block _ _ _ (pre.length + (blocksData offsets out_min_offset j).length) _
    (rest ++ List.replicate ((4 - data.length % 4) % 4) 0 ++ table.flatMap wordBytes ++ post)
    ?_ ?_ (length_blockAt_le offsets j) within
  · -- The table entry is the block's position.
    simp only [Accessor.make]
    have memory : pre ++ (AlignmentPadVector data 4 ++ table.flatMap wordBytes) ++ post =
        (pre ++ AlignmentPadVector data 4) ++ table.flatMap wordBytes ++ post := by
      simp only [List.append_assoc]
    rw [UInt32.toNat_ofNat_of_lt' padded, ← List.length_append, memory,
      loadWord_table _ _ tableLength, entryIs, UInt32.toNat_ofNat_of_lt' positionFits]
  · -- The block's bytes stand at its position.
    simp only [Accessor.make]
    rw [AlignmentPadVector, split]
    simp only [List.append_assoc]
    rw [← List.append_assoc pre, List.drop_left' (by simp)]

/-- `Accessor(data_begin)` over what the two-argument `Build` wrote: the
header holds the minimum and the table offset, and the data follows it. -/
theorem ofHeader_BuildWithHeader (offsets : List UInt32) :
    Accessor.ofHeader (BuildWithHeader offsets) 0 =
      Accessor.make (wordBytes (Build offsets).2.1 ++ wordBytes (Build offsets).2.2).length
        (Build offsets).2.1 (Build offsets).2.2 := by
  have minimum := loadWord_wordBytes [] (wordBytes (Build offsets).2.2 ++ (Build offsets).1)
    (Build offsets).2.1
  have tableOffset := loadWord_wordBytes (wordBytes (Build offsets).2.1) (Build offsets).1
    (Build offsets).2.2
  simp only [List.nil_append, List.length_nil, length_wordBytes, ← List.append_assoc]
    at minimum tableOffset
  rw [Accessor.ofHeader, BuildWithHeader, minimum, Nat.zero_add, tableOffset]
  rfl

theorem GetOffset_Build (offsets : List UInt32) (fits : (Build offsets).1.length < 2 ^ 32)
    (index : UInt32) (inside : index.toNat < offsets.length) :
    (Accessor.ofHeader (BuildWithHeader offsets) 0).GetOffset (BuildWithHeader offsets) index =
        offsets[index.toNat] ∧
      (Accessor.make 0 (Build offsets).2.1 (Build offsets).2.2).GetOffset (Build offsets).1 index =
        offsets[index.toNat] := by
  constructor
  · -- The header is eight bytes before the data.
    have atHeader := GetOffset_Build_at
      (wordBytes (Build offsets).2.1 ++ wordBytes (Build offsets).2.2) [] fits inside
    rw [List.append_nil] at atHeader
    rw [ofHeader_BuildWithHeader]
    exact atHeader
  · simpa using GetOffset_Build_at [] [] fits inside

theorem GetOffset_Build_small :
    (Accessor.ofHeader (BuildWithHeader [0, 5, 3]) 0).GetOffset (BuildWithHeader [0, 5, 3]) 1 = 5 ∧
      (Accessor.make 0 (Build [0, 5, 3]).2.1 (Build [0, 5, 3]).2.2).GetOffset
        (Build [0, 5, 3]).1 1 = 5 :=
  GetOffset_Build [0, 5, 3] (by decide +kernel) 1 (by decide)

end RoundTrip

section Wrapping

/-! ### Past `4 GiB`

A block of sixteen offsets alternating `0x80000001` and `1` takes 82 bytes:
the minimum is `1`, so every delta is `2 ^ 31` and takes five bytes.
`52377650` such blocks and one more offset give `82 * 52377650 + 3` bytes of
blocks, padded to `2 ^ 32 + 8`: the table offset wraps to `8`, inside the
first blocks. -/

theorem length_flatten_replicate {α : Type} (l : List α) (K : Nat) :
    ((List.replicate K l).flatten).length = K * l.length := by
  induction K with
  | zero => simp
  | succ K inductionHypothesis =>
    rw [List.replicate_succ, List.flatten_cons, List.length_append, inductionHypothesis,
      Nat.succ_mul, Nat.add_comm]

/-- A byte of `K` copies of a list is a byte of the list. -/
theorem getD_flatten_replicate {α : Type} (l : List α) (d : α) {K p : Nat}
    (inside : p < K * l.length) :
    ((List.replicate K l).flatten).getD p d = l.getD (p % l.length) d := by
  induction K generalizing p with
  | zero => simp at inside
  | succ K inductionHypothesis =>
    rw [List.replicate_succ, List.flatten_cons]
    by_cases first : p < l.length
    · rw [List.getD_append _ _ _ _ first, Nat.mod_eq_of_lt first]
    · rw [List.getD_append_right _ _ _ _ (by omega), Nat.mod_eq_sub_mod (by omega)]
      exact inductionHypothesis (by rw [Nat.succ_mul] at inside; omega)

theorem drop_flatten_replicate {α : Type} (l : List α) {K j : Nat} (within : j ≤ K) :
    ((List.replicate K l).flatten).drop (j * l.length) = (List.replicate (K - j) l).flatten := by
  have copies : List.replicate K l = List.replicate j l ++ List.replicate (K - j) l := by
    rw [List.replicate_append_replicate, Nat.add_sub_cancel' within]
  rw [copies, List.flatten_append, List.drop_left' (length_flatten_replicate l j)]

/-- The minimum of the non-zero offsets, found by the fold of `Build`. -/
theorem minimumOffset_eq {offsets : List UInt32} {least : UInt32} (nonzero : least ≠ 0)
    (present : least ∈ offsets) (lower : ∀ offset ∈ offsets, offset ≠ 0 → least ≤ offset) :
    minimumOffset offsets = least := by
  -- The fold keeps a value at least `least`, and equal to it once it is seen.
  suffices folded : ∀ (rest : List UInt32) out_min_offset,
      (∀ offset ∈ rest, offset ≠ 0 → least ≤ offset) → least ≤ out_min_offset →
      (least = out_min_offset ∨ least ∈ rest) →
      rest.foldl (fun out_min_offset offset =>
        if offset ≠ 0 then min out_min_offset offset else out_min_offset) out_min_offset = least from
    folded offsets 0xffffffff lower (UInt32.le_iff_toNat_le.mpr (Nat.le_of_lt_succ least.toNat_lt))
      (Or.inr present)
  intro rest
  induction rest with
  | nil => intro out_min_offset _ _ seen; simpa [eq_comm] using seen
  | cons offset rest inductionHypothesis =>
    intro out_min_offset restLower above seen
    rw [List.foldl_cons]
    have offsetLower := restLower offset List.mem_cons_self
    refine inductionHypothesis _ (fun other inRest => restLower other (List.mem_cons_of_mem _ inRest))
      ?_ ?_
    · split
      · next zero => exact Std.le_min_iff.mpr ⟨above, offsetLower zero⟩
      · exact above
    · rcases seen with atStart | inList
      · left
        split
        · next zero =>
          rw [← atStart, Std.LawfulOrderLeftLeaningMin.min_eq_left _ _ (offsetLower zero)]
        · exact atStart
      · rcases List.mem_cons.mp inList with here | later
        · -- `least` is this offset, below what the fold holds.
          left
          rw [← here, if_pos nonzero]
          apply UInt32.toNat_inj.mp
          have below := UInt32.le_iff_toNat_le.mp above
          rw [UInt32.toNat_min]
          omega
        · exact Or.inr later

/-- Sixteen offsets whose deltas from the minimum `1` are all `2 ^ 31`. -/
def wideBlock : List UInt32 :=
  [0x80000001, 1, 0x80000001, 1, 0x80000001, 1, 0x80000001, 1,
    0x80000001, 1, 0x80000001, 1, 0x80000001, 1, 0x80000001, 1]

/-- `52377650` wide blocks, then the offset `7`. -/
def wrappingOffsets : List UInt32 := (List.replicate 52377650 wideBlock).flatten ++ [7]

theorem length_blockBytes_wideBlock : (blockBytes 1 wideBlock).length = 82 := by
  decide +kernel

theorem length_wrappingOffsets : wrappingOffsets.length = 16 * 52377650 + 1 := by
  rw [wrappingOffsets, List.length_append, length_flatten_replicate]
  rfl

theorem minimumOffset_wrappingOffsets : minimumOffset wrappingOffsets = 1 := by
  have wide : ∀ offset ∈ wideBlock, offset = 0x80000001 ∨ offset = 1 := by
    simp only [wideBlock, List.forall_mem_cons, List.not_mem_nil, true_or, or_true, and_self,
      IsEmpty.forall_iff, implies_true]
  apply minimumOffset_eq (by decide)
  · exact List.mem_append_left _
      (List.mem_flatten.mpr ⟨wideBlock, List.mem_replicate.mpr ⟨by decide, rfl⟩, by decide⟩)
  · intro offset present _
    simp only [wrappingOffsets, List.mem_append, List.mem_flatten, List.mem_replicate,
      List.mem_singleton] at present
    rcases present with ⟨_, ⟨_, rfl⟩, inWide⟩ | rfl
    · rcases wide offset inWide with rfl | rfl <;> decide
    · decide

theorem blockAt_wrappingOffsets {j : Nat} (before : j < 52377650) :
    blockAt wrappingOffsets j = wideBlock := by
  have wide : wideBlock.length = kElementsPerIndex := rfl
  have copies : List.replicate (52377650 - j) wideBlock =
      wideBlock :: List.replicate (52377650 - j - 1) wideBlock := by
    rw [← List.replicate_succ, Nat.sub_add_cancel (by omega)]
  have position : kElementsPerIndex * j = j * wideBlock.length := by rw [wide, Nat.mul_comm]
  rw [blockAt, wrappingOffsets, position, List.drop_append_of_le_length (by
      rw [length_flatten_replicate]; exact Nat.mul_le_mul_right _ (Nat.le_of_lt before)),
    drop_flatten_replicate _ (Nat.le_of_lt before), copies, List.flatten_cons, List.append_assoc,
    ← wide, List.take_left' rfl]

theorem blockAt_wrappingOffsets_last : blockAt wrappingOffsets 52377650 = [7] := by
  rw [blockAt, wrappingOffsets, List.drop_left' (by rw [length_flatten_replicate]; rfl)]
  rfl

theorem numBlocks_wrappingOffsets : numBlocks wrappingOffsets = 52377650 + 1 := by
  rw [numBlocks, length_wrappingOffsets]
  rfl

theorem blocksData_wrappingOffsets {j : Nat} (within : j ≤ 52377650) :
    blocksData wrappingOffsets 1 j = (List.replicate j (blockBytes 1 wideBlock)).flatten := by
  induction j with
  | zero => rfl
  | succ j inductionHypothesis =>
    rw [blocksData_succ, inductionHypothesis (by omega), blockAt_wrappingOffsets (by omega),
      List.replicate_succ', List.flatten_append, List.flatten_singleton]

/-- What `Build` writes for `wrappingOffsets`: the blocks, one byte of padding
and the table, with the table offset wrapped to `8`. -/
theorem Build_wrappingOffsets :
    ∃ table, Build wrappingOffsets =
      ((List.replicate 52377650 (blockBytes 1 wideBlock)).flatten ++ table, 1, 8) := by
  have data : blocksData wrappingOffsets 1 (numBlocks wrappingOffsets) =
      (List.replicate 52377650 (blockBytes 1 wideBlock)).flatten ++ [0, 1, 6] := by
    rw [numBlocks_wrappingOffsets, blocksData_succ, blocksData_wrappingOffsets (Nat.le_refl _),
      blockAt_wrappingOffsets_last, show blockBytes 1 [7] = [0, 1, 6] by decide +kernel]
  have dataLength :
      ((List.replicate 52377650 (blockBytes 1 wideBlock)).flatten ++ [0, 1, 6]).length =
        82 * 52377650 + 3 := by
    rw [List.length_append, length_flatten_replicate, length_blockBytes_wideBlock]
    rfl
  have padding : (4 - (82 * 52377650 + 3) % 4) % 4 = 1 := by decide
  rw [Build_eq, minimumOffset_wrappingOffsets, data, AlignmentPadVector, dataLength, padding,
    List.length_append, dataLength, List.length_replicate,
    show UInt32.ofNat (82 * 52377650 + 3 + 1) = 8 by decide]
  exact ⟨[0, 1, 6] ++ List.replicate 1 0 ++
      (blockTable wrappingOffsets 1 (numBlocks wrappingOffsets)).flatMap wordBytes,
    by simp only [List.append_assoc]⟩

/-- A byte of the data inside the wide blocks. -/
theorem getD_wideBlocks {pre table post : List UInt8} {p : Nat} (inside : p < 82 * 52377650) :
    (pre ++ ((List.replicate 52377650 (blockBytes 1 wideBlock)).flatten ++ table) ++ post).getD
      (pre.length + p) 0 = (blockBytes 1 wideBlock).getD (p % 82) 0 := by
  have blocksLength := length_flatten_replicate (blockBytes 1 wideBlock) 52377650
  rw [length_blockBytes_wideBlock] at blocksLength
  rw [List.append_assoc, List.getD_append_right _ _ _ _ (Nat.le_add_right _ _),
    Nat.add_sub_cancel_left, List.append_assoc, List.getD_append _ _ _ _ (by omega),
    getD_flatten_replicate _ _ (by rw [length_blockBytes_wideBlock]; omega),
    length_blockBytes_wideBlock]

/-- `GetOffset(838042400)` with the table offset `8` over memory that holds
wide blocks from `data_begin`. -/
theorem GetOffset_of_wideBlocks {memory : List UInt8} {data_begin : Nat}
    (reads : ∀ p, p < 82 * 52377650 →
      memory.getD (data_begin + p) 0 = (blockBytes 1 wideBlock).getD (p % 82) 0) :
    (Accessor.make data_begin 1 8).GetOffset memory 838042400 = 0 := by
  -- The table offset wrapped to `8`: the entry of the last block is read
  -- inside the wide blocks, and points inside them again.
  have entry : loadWord memory (data_begin + 8 + 4 * (838042400 / kElementsPerIndex)) =
      0x80088080 := by
    rw [show data_begin + 8 + 4 * (838042400 / kElementsPerIndex) = data_begin + 209510608 by
      simp only [show kElementsPerIndex = 16 from rfl, Nat.reduceDiv, Nat.reduceMul, Nat.add_assoc,
        Nat.reduceAdd]]
    simp (disch := decide) only [loadWord, Nat.add_assoc, Nat.reduceAdd, reads]
    decide +kernel
  rw [Accessor.GetOffset]
  simp only [Accessor.make, UInt32.reduceToNat, entry]
  simp (disch := decide) only [Nat.add_assoc, Nat.reduceAdd, reads]
  rw [if_pos (by decide +kernel)]

theorem GetOffset_wrappingOffsets (pre post : List UInt8) :
    (Accessor.make pre.length (Build wrappingOffsets).2.1 (Build wrappingOffsets).2.2).GetOffset
      (pre ++ (Build wrappingOffsets).1 ++ post) 838042400 = 0 := by
  obtain ⟨table, built⟩ := Build_wrappingOffsets
  rw [built]
  exact GetOffset_of_wideBlocks fun p inside => getD_wideBlocks inside

/-- More than `4 GiB` of data: the last offset, `7`, reads back as `0` from
both forms of `Build`. -/
theorem GetOffset_Build_wraps :
    2 ^ 32 ≤ (Build wrappingOffsets).1.length ∧ wrappingOffsets[838042400]? = some 7 ∧
      (Accessor.ofHeader (BuildWithHeader wrappingOffsets) 0).GetOffset
        (BuildWithHeader wrappingOffsets) 838042400 = 0 ∧
      (Accessor.make 0 (Build wrappingOffsets).2.1 (Build wrappingOffsets).2.2).GetOffset
        (Build wrappingOffsets).1 838042400 = 0 := by
  refine ⟨?_, ?_, ?_, ?_⟩
  · obtain ⟨table, built⟩ := Build_wrappingOffsets
    rw [built, List.length_append, length_flatten_replicate, length_blockBytes_wideBlock]
    omega
  · rw [wrappingOffsets, List.getElem?_append_right (by rw [length_flatten_replicate]; rfl),
      length_flatten_replicate]
    rfl
  · have atHeader := GetOffset_wrappingOffsets
      (wordBytes (Build wrappingOffsets).2.1 ++ wordBytes (Build wrappingOffsets).2.2) []
    rw [List.append_nil] at atHeader
    rw [ofHeader_BuildWithHeader]
    exact atHeader
  · have atStart := GetOffset_wrappingOffsets [] []
    rw [List.nil_append, List.append_nil, List.length_nil] at atStart
    exact atStart

end Wrapping

end CompactOffsetTable

end ArtRuntime.Dex
