import ArtRuntime.Bits.LittleEndian

namespace ArtRuntime.Base

open ArtRuntime.Bits

/-!
# `BitMemoryRegion`: bit fields in byte memory

`libartbase/base/bit_memory_region.h`.  A region is a run of bits of memory,
given by a data pointer aligned down to `kMaxSingleLoadBytes`, the bit where
the region starts after that pointer, and a size in bits.  `LoadBits` reads a
field with one or two naturally aligned word loads, a shift and masks, and
`StoreBits` writes it byte by byte.

Memory is a function from addresses to bytes, and Android is little-endian,
so the region's bits are bits of the stream `bitAt memory` of
`ArtRuntime.Bits`.  The main results are that `LoadBits` reads the field of
the stream at the region's start plus the offset (`LoadBits_toNat`) and that
`StoreBits` writes that field and no other bit (`bitAt_StoreBits`).

The unsigned types of the source (`Result` of `LoadBits`, and `size_t`) are
parameters given by their size, so that the model covers both pointer widths.
-/

/-- An unsigned integer type of the source, of `2 ^ bytesLog` bytes, at most
`sizeof(uint64_t)`. -/
structure UnsignedType where
  bytesLog : Nat
  bytesLog_le : bytesLog ≤ 3

namespace UnsignedType

/-- `sizeof(T)`. -/
def bytes (type : UnsignedType) : Nat :=
  2 ^ type.bytesLog

/-- `BitSizeOf<T>()`. -/
def width (type : UnsignedType) : Nat :=
  8 * type.bytes

def uint32_t : UnsignedType :=
  ⟨2, by decide⟩

def uint64_t : UnsignedType :=
  ⟨3, by decide⟩

variable (type : UnsignedType)

theorem width_eq_two_pow : type.width = 2 ^ (type.bytesLog + 3) := by
  simp [width, bytes, Nat.pow_add, Nat.mul_comm]

theorem width_le : type.width ≤ 64 := by
  rw [width_eq_two_pow]
  exact (Nat.pow_le_pow_right (by omega) (by have := type.bytesLog_le; omega) :
    2 ^ (type.bytesLog + 3) ≤ 2 ^ 6)

theorem eight_le_width : 8 ≤ type.width := by
  have := Nat.one_le_two_pow (n := type.bytesLog)
  simp only [width, bytes]
  omega

/-- A word position never needs more than the word's own bits: `width - 1` is
all ones below the width. -/
theorem and_width_sub_one (value : Nat) : value &&& (type.width - 1) = value % type.width := by
  rw [width_eq_two_pow, Nat.and_two_pow_sub_one_eq_mod]

/-- Memory is aligned to the widest load, so word boundaries of every type
fall on its multiples. -/
theorem width_dvd_sixtyFour : type.width ∣ 64 := by
  have divides : 2 ^ (type.bytesLog + 3) ∣ 2 ^ 6 :=
    Nat.pow_dvd_pow 2 (by have := type.bytesLog_le; omega)
  rw [width_eq_two_pow]
  simpa using divides

end UnsignedType

def kBitsPerByte : Nat := 8

def kBitsPerByteLog2 : Nat := 3

/-- `sizeof(MaxSingleLoadType)`, the alignment of every region's pointer. -/
def kMaxSingleLoadBytes : Nat := 8

/-- `reinterpret_cast<Result*>(data_)[index]`: the little-endian `Result` at
`data_ + index * sizeof(Result)`. -/
def loadWord (Result : UnsignedType) (memory : Nat → BitVec 8) (data_ index : Nat) :
    BitVec Result.width :=
  BitVec.ofNat Result.width (littleEndian memory (data_ + index * Result.bytes) Result.bytes)

theorem getLsbD_loadWord (Result : UnsignedType) (memory : Nat → BitVec 8) (data_ index j : Nat) :
    (loadWord Result memory data_ index).getLsbD j =
      (decide (j < Result.width) && bitAt memory (8 * data_ + index * Result.width + j)) := by
  rw [loadWord, BitVec.getLsbD_ofNat, testBit_littleEndian]
  unfold UnsignedType.width
  by_cases inside : j < 8 * Result.bytes
  · simp only [inside, decide_true, Bool.true_and]
    rw [Nat.mul_add, Nat.mul_left_comm]
  · simp [inside]

theorem alignDown_aligned (address : Nat) :
    (address - address % kMaxSingleLoadBytes) % kMaxSingleLoadBytes = 0 := by
  unfold kMaxSingleLoadBytes
  omega

/-- A region of bit memory.  The pointer is aligned down to
`kMaxSingleLoadBytes` by the constructor, so that every load is naturally
aligned. -/
structure BitMemoryRegion where
  data_ : Nat
  bit_start_ : Nat
  bit_size_ : Nat
  data_aligned : data_ % kMaxSingleLoadBytes = 0

namespace BitMemoryRegion

/-- The stream position of the region's first bit. -/
def origin (region : BitMemoryRegion) : Nat :=
  8 * region.data_ + region.bit_start_

/-- `BitMemoryRegion(uint8_t* data, ssize_t bit_start, size_t bit_size)`: the
pointer is moved by whole bytes of `bit_start` (an arithmetic shift) and
aligned down; `bit_start_` keeps the bits between the aligned pointer and the
start. -/
def create (data : Nat) (bit_start : Int) (bit_size : Nat) : BitMemoryRegion :=
  let address := ((data : Int) + (bit_start >>> kBitsPerByteLog2)).toNat
  let data_ := address - address % kMaxSingleLoadBytes
  { data_ := data_
    bit_start_ := (bit_start + kBitsPerByte * ((data : Int) - data_)).toNat
    bit_size_ := bit_size
    data_aligned := alignDown_aligned address }

/-- The constructor keeps the stream position of the first bit. -/
theorem origin_create {data : Nat} {bit_start : Int} (bit_size : Nat)
    (inMemory : 0 ≤ (data : Int) + bit_start / 8) :
    ((create data bit_start bit_size).origin : Int) = 8 * data + bit_start := by
  have shift : bit_start >>> kBitsPerByteLog2 = bit_start / 8 := by
    rw [Int.shiftRight_eq_div_pow]
    rfl
  simp only [origin, create, shift, kBitsPerByte, kMaxSingleLoadBytes]
  omega

/-- The constructor at a start that is not negative, as writers and readers
call it. -/
theorem origin_create_natCast (data bit_start bit_size : Nat) :
    (create data bit_start bit_size).origin = 8 * data + bit_start := by
  have signed := @origin_create data bit_start bit_size (by omega)
  omega

/-- `Subregion(bit_offset, bit_length)`. -/
def Subregion (region : BitMemoryRegion) (bit_offset bit_length : Nat) : BitMemoryRegion :=
  { region with bit_start_ := region.bit_start_ + bit_offset, bit_size_ := bit_length }

/-- `Resize(bit_size)`. -/
def Resize (region : BitMemoryRegion) (bit_size : Nat) : BitMemoryRegion :=
  { region with bit_size_ := bit_size }

@[simp] theorem origin_Subregion (region : BitMemoryRegion) (bit_offset bit_length : Nat) :
    (region.Subregion bit_offset bit_length).origin = region.origin + bit_offset := by
  simp [Subregion, origin, Nat.add_assoc]

@[simp] theorem bit_size_Subregion (region : BitMemoryRegion) (bit_offset bit_length : Nat) :
    (region.Subregion bit_offset bit_length).bit_size_ = bit_length :=
  rfl

@[simp] theorem origin_Resize (region : BitMemoryRegion) (bit_size : Nat) :
    (region.Resize bit_size).origin = region.origin :=
  rfl

@[simp] theorem bit_size_Resize (region : BitMemoryRegion) (bit_size : Nat) :
    (region.Resize bit_size).bit_size_ = bit_size :=
  rfl

section Load

variable (Result : UnsignedType) (memory : Nat → BitVec 8) (region : BitMemoryRegion)

/-- `LoadBits<Result>(bit_offset, bit_length)`: load the naturally aligned word
holding the first bit and the one holding the last bit (the same word when
they coincide), shift the first down, place the second above it and clear
the bits beyond the length. -/
def LoadBits (bit_offset bit_length : Nat) : BitVec Result.width :=
  if bit_length = 0 then 0
  else
    let width := Result.width
    let index := (region.bit_start_ + bit_offset) / width
    let shift := (region.bit_start_ + bit_offset) % width
    let value := loadWord Result memory region.data_ index >>> shift
    let extra := loadWord Result memory region.data_ (index + (shift + (bit_length - 1)) / width)
    let clear := (BitVec.allOnes width <<< 1) <<< (bit_length - 1)
    (value ||| (extra <<< ((width - shift) &&& (width - 1)))) &&& ~~~clear

/-- The clear mask of `LoadBits` has its ones from the length on. -/
theorem getLsbD_clearMask {width bit_length : Nat} (positive : 0 < bit_length) (j : Nat) :
    ((BitVec.allOnes width <<< 1) <<< (bit_length - 1)).getLsbD j =
      (decide (j < width) && decide (bit_length ≤ j)) := by
  simp only [BitVec.getLsbD_shiftLeft, BitVec.getLsbD_allOnes]
  by_cases inside : j < width
  · by_cases beyond : bit_length ≤ j
    · simp [inside, beyond, show ¬ j < bit_length - 1 by omega, show ¬ j - (bit_length - 1) < 1 by omega]
      omega
    · simp [inside, beyond]
      omega
  · simp [inside]

/-- `LoadBits` reads the field of the stream that starts `bit_offset` bits
into the region, for every alignment of the region's start. -/
theorem LoadBits_toNat {bit_offset bit_length : Nat} (fits : bit_length ≤ Result.width) :
    (region.LoadBits Result memory bit_offset bit_length).toNat =
      bitField (bitAt memory) (region.origin + bit_offset) bit_length := by
  unfold LoadBits
  by_cases empty : bit_length = 0
  · simp [empty, bitField]
  rw [if_neg empty]
  dsimp only
  have positive := Nat.pos_of_ne_zero empty
  have widthPositive : 0 < Result.width := by have := Result.eight_le_width; omega
  -- the first word holds the field's first bit at `shift`
  have position := Nat.div_add_mod (region.bit_start_ + bit_offset) Result.width
  have shiftLt := Nat.mod_lt (region.bit_start_ + bit_offset) widthPositive
  generalize (region.bit_start_ + bit_offset) / Result.width = index at position ⊢
  generalize (region.bit_start_ + bit_offset) % Result.width = shift at position shiftLt ⊢
  have streamPosition : ∀ j, 8 * region.data_ + index * Result.width + (shift + j) =
      region.origin + bit_offset + j := by
    intro j
    simp only [origin]
    rw [Nat.mul_comm index]
    omega
  have firstWord : ∀ j, (loadWord Result memory region.data_ index >>> shift).getLsbD j =
      (decide (shift + j < Result.width) && bitAt memory (region.origin + bit_offset + j)) := by
    intro j
    rw [BitVec.getLsbD_ushiftRight, getLsbD_loadWord, streamPosition]
  -- the second word is the first one again when `shift = 0`, else the next word
  have secondWord : ∀ j < bit_length,
      (loadWord Result memory region.data_ (index + (shift + (bit_length - 1)) / Result.width) <<<
          ((Result.width - shift) &&& (Result.width - 1))).getLsbD j =
        (decide (j < Result.width) && decide (shift = 0 ∨ Result.width - shift ≤ j) &&
          bitAt memory (region.origin + bit_offset + j)) := by
    intro j short
    rw [Result.and_width_sub_one, BitVec.getLsbD_shiftLeft, getLsbD_loadWord]
    by_cases aligned : shift = 0
    · have sameIndex : (shift + (bit_length - 1)) / Result.width = 0 := Nat.div_eq_of_lt (by omega)
      subst aligned
      simp only [sameIndex, Nat.add_zero, Nat.sub_zero, Nat.mod_self, Nat.not_lt_zero,
        decide_false, Bool.not_false, Nat.sub_zero, true_or, decide_true, Bool.and_true]
      rw [← streamPosition j, Nat.zero_add]
      cases decide (j < Result.width) <;> simp
    · have wrapped : (Result.width - shift) % Result.width = Result.width - shift :=
        Nat.mod_eq_of_lt (by omega)
      rw [wrapped]
      by_cases later : Result.width - shift ≤ j
      · have nextIndex : (shift + (bit_length - 1)) / Result.width = 1 := by
          rw [Nat.div_eq_iff widthPositive]
          omega
        have nextPosition : 8 * region.data_ + (index + 1) * Result.width +
            (j - (Result.width - shift)) = region.origin + bit_offset + j := by
          rw [← streamPosition j, Nat.add_mul]
          omega
        simp [nextIndex, later, nextPosition, show j - (Result.width - shift) < Result.width by omega,
          show ¬ j < Result.width - shift by omega]
      · simp [later, aligned]
  apply toNat_eq_bitField (bitAt memory) fits
  intro j inside
  rw [BitVec.getLsbD_and, BitVec.getLsbD_or, BitVec.getLsbD_not, getLsbD_clearMask positive,
    firstWord]
  by_cases short : j < bit_length
  · rw [secondWord j short]
    cases bitAt memory (region.origin + bit_offset + j) <;> simp [inside, short]
    omega
  · simp [inside, short, show bit_length ≤ j by omega]

end Load

section Store

variable (size_t : UnsignedType)

/-- The loop of `StoreBits` over the bytes after the first: byte `address + i`
takes the bits of `value` from `finished_bits` on. -/
def StoreBitsLoop (memory : Nat → BitVec 8) (address : Nat) (mask value : BitVec size_t.width)
    (bit_length i finished_bits : Nat) : Nat → BitVec 8 :=
  if finished_bits < bit_length then
    let cleared := memory (address + i) &&& (~~~(mask >>> finished_bits)).setWidth 8
    let byte := cleared ||| (value >>> finished_bits).setWidth 8
    StoreBitsLoop (Function.update memory (address + i) byte) address mask value bit_length (i + 1)
      (finished_bits + kBitsPerByte)
  else memory
termination_by bit_length - finished_bits
decreasing_by simp only [kBitsPerByte]; omega

/-- `StoreBits(bit_offset, value, bit_length)`: write the field byte by byte,
so that bytes outside the region are never written, clearing the field's bits
of each byte with `mask` before setting them from `value`. -/
def StoreBits (memory : Nat → BitVec 8) (region : BitMemoryRegion) (bit_offset : Nat)
    (value : BitVec size_t.width) (bit_length : Nat) : Nat → BitVec 8 :=
  if bit_length = 0 then memory
  else
    let mask := BitVec.allOnes size_t.width >>> (size_t.width - bit_length)
    let index := (region.bit_start_ + bit_offset) / kBitsPerByte
    let shift := (region.bit_start_ + bit_offset) % kBitsPerByte
    let address := region.data_ + index
    let cleared := memory address &&& (~~~(mask <<< shift)).setWidth 8
    let first := cleared ||| (value <<< shift).setWidth 8
    StoreBitsLoop size_t (Function.update memory address first) address mask value bit_length 1
      (kBitsPerByte - shift)

variable {size_t}

/-- The mask of `StoreBits` has ones below the length. -/
theorem getLsbD_lowMask {bit_length : Nat} (fits : bit_length ≤ size_t.width) (k : Nat) :
    (BitVec.allOnes size_t.width >>> (size_t.width - bit_length)).getLsbD k =
      decide (k < bit_length) := by
  rw [BitVec.getLsbD_ushiftRight, BitVec.getLsbD_allOnes]
  exact decide_eq_decide.mpr (by omega)

/-- The first byte of `StoreBits`: the bits from `shift` take the value. -/
theorem getLsbD_storeFirst {mask value : BitVec size_t.width} {bit_length shift : Nat}
    (maskBits : ∀ k, mask.getLsbD k = decide (k < bit_length))
    (small : ∀ k, bit_length ≤ k → value.getLsbD k = false) (byte : BitVec 8) {k : Nat}
    (inByte : k < 8) (wide : 8 ≤ size_t.width) :
    ((byte &&& (~~~(mask <<< shift)).setWidth 8) ||| (value <<< shift).setWidth 8).getLsbD k =
      if shift ≤ k ∧ k < shift + bit_length then value.getLsbD (k - shift) else byte.getLsbD k := by
  simp only [BitVec.getLsbD_or, BitVec.getLsbD_and, BitVec.getLsbD_setWidth, BitVec.getLsbD_not,
    BitVec.getLsbD_shiftLeft, maskBits, inByte, show k < size_t.width by omega, decide_true,
    Bool.true_and]
  by_cases above : shift ≤ k
  · by_cases inside : k < shift + bit_length
    · simp [above, inside, show k - shift < bit_length by omega, show ¬ k < shift by omega]
    · simp [above, inside, show ¬ k - shift < bit_length by omega, small (k - shift) (by omega)]
  · simp [above, show k < shift by omega]

/-- A later byte of `StoreBits`: its bits take the value from `finished_bits` on. -/
theorem getLsbD_storeNext {mask value : BitVec size_t.width} {bit_length finished_bits : Nat}
    (maskBits : ∀ k, mask.getLsbD k = decide (k < bit_length))
    (small : ∀ k, bit_length ≤ k → value.getLsbD k = false) (byte : BitVec 8) {k : Nat}
    (inByte : k < 8) (wide : 8 ≤ size_t.width) :
    ((byte &&& (~~~(mask >>> finished_bits)).setWidth 8) |||
        (value >>> finished_bits).setWidth 8).getLsbD k =
      if finished_bits + k < bit_length then value.getLsbD (finished_bits + k) else byte.getLsbD k := by
  simp only [BitVec.getLsbD_or, BitVec.getLsbD_and, BitVec.getLsbD_setWidth, BitVec.getLsbD_not,
    BitVec.getLsbD_ushiftRight, maskBits, inByte, show k < size_t.width by omega, decide_true,
    Bool.true_and]
  by_cases inside : finished_bits + k < bit_length
  · simp [inside]
  · simp [inside, small (finished_bits + k) (by omega)]

/-- The loop of `StoreBits` writes the field's bits from byte `address + i`
on and leaves the bytes before it. -/
theorem bitAt_StoreBitsLoop {address bit_length : Nat} {mask value : BitVec size_t.width}
    (maskBits : ∀ k, mask.getLsbD k = decide (k < bit_length))
    (small : ∀ k, bit_length ≤ k → value.getLsbD k = false) (wide : 8 ≤ size_t.width)
    (start : Nat) (memory : Nat → BitVec 8) (i finished_bits : Nat)
    (aligned : 8 * (address + i) = start + finished_bits) :
    bitAt (StoreBitsLoop size_t memory address mask value bit_length i finished_bits) = fun bit =>
      if 8 * (address + i) ≤ bit then writeField (bitAt memory) start bit_length value.toNat bit
      else bitAt memory bit := by
  fun_induction StoreBitsLoop size_t memory address mask value bit_length i finished_bits with
  | case1 memory i finished_bits unfinished cleared byte inductionHypothesis =>
      rw [inductionHypothesis (by simp only [kBitsPerByte]; omega)]
      funext bit
      unfold writeField
      rw [bitAt_update]
      by_cases later : 8 * (address + (i + 1)) ≤ bit
      · simp [later, show ¬ bit / 8 = address + i by omega, show 8 * (address + i) ≤ bit by omega]
      · rw [if_neg later]
        by_cases thisByte : bit / 8 = address + i
        · simp only [byte, cleared]
          rw [if_pos thisByte, if_pos (by omega), getLsbD_storeNext maskBits small _ (by omega) wide]
          have offset : bit - start = finished_bits + bit % 8 := by omega
          by_cases inField : finished_bits + bit % 8 < bit_length
          · simp [inField, offset, show start ≤ bit ∧ bit < start + bit_length by omega,
              BitVec.testBit_toNat]
          · simp [inField, show ¬ (start ≤ bit ∧ bit < start + bit_length) by omega, bitAt,
              thisByte]
        · rw [if_neg thisByte, if_neg (by omega)]
  | case2 memory i finished_bits finished =>
      funext bit
      by_cases later : 8 * (address + i) ≤ bit
      · rw [if_pos later, writeField_of_not_mem _ _ _ _ (by omega)]
      · rw [if_neg later]

/-- `StoreBits` writes the low `bit_length` bits of a value that fits in them
at `bit_offset` into the region, and no other bit of memory. -/
theorem bitAt_StoreBits (memory : Nat → BitVec 8) (region : BitMemoryRegion)
    {bit_offset bit_length : Nat} {value : BitVec size_t.width}
    (fits : bit_length ≤ size_t.width) (small : value.toNat < 2 ^ bit_length) :
    bitAt (region.StoreBits size_t memory bit_offset value bit_length) =
      writeField (bitAt memory) (region.origin + bit_offset) bit_length value.toNat := by
  unfold StoreBits
  by_cases empty : bit_length = 0
  · funext bit
    simp [empty, writeField]
  rw [if_neg empty]
  dsimp only
  have maskBits := getLsbD_lowMask fits
  have valueBits : ∀ k, bit_length ≤ k → value.getLsbD k = false := by
    intro k beyond
    rw [← BitVec.testBit_toNat]
    exact Nat.testBit_lt_two_pow (lt_of_lt_of_le small (Nat.pow_le_pow_right (by omega) beyond))
  have wide := size_t.eight_le_width
  -- the first byte holds the field's first bit at `shift`
  have position := Nat.div_add_mod (region.bit_start_ + bit_offset) kBitsPerByte
  have shiftLt := Nat.mod_lt (region.bit_start_ + bit_offset) (show 0 < kBitsPerByte by decide)
  generalize (region.bit_start_ + bit_offset) / kBitsPerByte = index at position ⊢
  generalize (region.bit_start_ + bit_offset) % kBitsPerByte = shift at position shiftLt ⊢
  simp only [kBitsPerByte] at position shiftLt ⊢
  rw [bitAt_StoreBitsLoop (getLsbD_lowMask fits) valueBits wide (region.origin + bit_offset) _ 1
    (8 - shift) (by simp only [origin]; omega)]
  funext bit
  unfold writeField
  rw [bitAt_update]
  by_cases later : 8 * (region.data_ + index + 1) ≤ bit
  · simp [later, show ¬ bit / 8 = region.data_ + index by omega]
  · rw [if_neg later]
    by_cases firstByte : bit / 8 = region.data_ + index
    · rw [if_pos firstByte, getLsbD_storeFirst maskBits valueBits _ (by omega) wide]
      by_cases inField : shift ≤ bit % 8 ∧ bit % 8 < shift + bit_length
      · simp [inField, show region.origin + bit_offset ≤ bit ∧
            bit < region.origin + bit_offset + bit_length by simp only [origin]; omega,
          BitVec.testBit_toNat, show bit % 8 - shift = bit - (region.origin + bit_offset) by
            simp only [origin]; omega]
      · simp [inField, show ¬ (region.origin + bit_offset ≤ bit ∧
            bit < region.origin + bit_offset + bit_length) by simp only [origin]; omega, bitAt,
          firstByte]
    · rw [if_neg firstByte, if_neg (by simp only [origin]; omega)]

end Store

section Chunks

variable (size_t : UnsignedType)

/-- `StoreChunk(bit_offset, value, bit_length)`: a whole `size_t` chunk is one
word store (`VisitChunks` produces those only at word boundaries), a partial
chunk goes through `StoreBits`. -/
def StoreChunk (memory : Nat → BitVec 8) (region : BitMemoryRegion) (bit_offset : Nat)
    (value : BitVec size_t.width) (bit_length : Nat) : Nat → BitVec 8 :=
  if bit_length = size_t.width then
    storeLittleEndian memory (region.data_ + (region.bit_start_ + bit_offset) / kBitsPerByte)
      value.toNat size_t.bytes
  else region.StoreBits size_t memory bit_offset value bit_length

variable {size_t} in
/-- `StoreChunk` writes its field like `StoreBits`, a whole chunk at a byte
boundary included. -/
theorem bitAt_StoreChunk (memory : Nat → BitVec 8) (region : BitMemoryRegion)
    {bit_offset bit_length : Nat} {value : BitVec size_t.width}
    (fits : bit_length ≤ size_t.width) (small : value.toNat < 2 ^ bit_length)
    (wordAligned : bit_length = size_t.width → (region.bit_start_ + bit_offset) % kBitsPerByte = 0) :
    bitAt (region.StoreChunk size_t memory bit_offset value bit_length) =
      writeField (bitAt memory) (region.origin + bit_offset) bit_length value.toNat := by
  unfold StoreChunk
  by_cases whole : bit_length = size_t.width
  · have byteAligned := wordAligned whole
    rw [if_pos whole, bitAt_storeLittleEndian, whole]
    simp only [kBitsPerByte] at byteAligned ⊢
    have startByte : 8 * (region.data_ + (region.bit_start_ + bit_offset) / 8) =
        region.origin + bit_offset := by
      simp only [origin]
      omega
    rw [startByte]
    rfl
  · rw [if_neg whole, bitAt_StoreBits memory region fits small]

/-- The `while` loop of `VisitChunks` and its trailing chunk: whole words from
word `data` on, then the remaining bits, masked. -/
def VisitChunksLoop {σ : Type} (region : BitMemoryRegion) (memoryOf : σ → Nat → BitVec 8)
    (visitor : σ → Nat → Nat → BitVec size_t.width → σ × Bool) (state : σ)
    (offset remaining_bits data : Nat) : σ × Bool :=
  if size_t.width ≤ remaining_bits then
    let value := loadWord size_t (memoryOf state) region.data_ data
    match visitor state offset size_t.width value with
    | (state, true) =>
        VisitChunksLoop region memoryOf visitor state (offset + size_t.width)
          (remaining_bits - size_t.width) (data + 1)
    | (state, false) => (state, false)
  else if remaining_bits ≠ 0 then
    let value := loadWord size_t (memoryOf state) region.data_ data &&&
      ~~~(BitVec.allOnes size_t.width <<< remaining_bits)
    visitor state offset remaining_bits value
  else (state, true)
termination_by remaining_bits
decreasing_by have := size_t.eight_le_width; omega

/-- `VisitChunks(visitor)`: visit the region in `size_t` chunks aligned in
memory, the first and the last possibly shorter, until the visitor returns
`false`.  The visitor's state holds the memory that later chunks are read
from, so that a visitor may store into the region it visits. -/
def VisitChunks {σ : Type} (region : BitMemoryRegion) (memoryOf : σ → Nat → BitVec 8)
    (visitor : σ → Nat → Nat → BitVec size_t.width → σ × Bool) (state : σ) : σ × Bool :=
  let kChunkSize := size_t.width
  let remaining_bits := region.bit_size_
  if remaining_bits = 0 then (state, true)
  else
    let data := region.bit_start_ / kChunkSize
    if region.bit_start_ % kChunkSize ≠ 0 then
      let leading_bits := kChunkSize - region.bit_start_ % kChunkSize
      let value := loadWord size_t (memoryOf state) region.data_ data >>>
        (region.bit_start_ % kChunkSize)
      let (leading_bits, value) :=
        if leading_bits > remaining_bits then
          (remaining_bits, value &&& ~~~(BitVec.allOnes size_t.width <<< remaining_bits))
        else (leading_bits, value)
      match visitor state 0 leading_bits value with
      | (state, true) =>
          VisitChunksLoop size_t region memoryOf visitor state leading_bits
            (remaining_bits - leading_bits) (data + 1)
      | (state, false) => (state, false)
    else VisitChunksLoop size_t region memoryOf visitor state 0 remaining_bits data

section Values

variable {size_t}

/-- Masking with the complement of shifted ones keeps the low bits. -/
theorem getLsbD_and_not_allOnes_shiftLeft {width : Nat} (value : BitVec width) (count j : Nat) :
    (value &&& ~~~(BitVec.allOnes width <<< count)).getLsbD j =
      (decide (j < count) && value.getLsbD j) := by
  simp only [BitVec.getLsbD_and, BitVec.getLsbD_not, BitVec.getLsbD_shiftLeft,
    BitVec.getLsbD_allOnes]
  by_cases inside : j < width
  · by_cases low : j < count
    · simp [inside, low]
    · simp [inside, low]
      omega
  · simp [BitVec.getLsbD_of_ge value j (by omega)]

/-- A whole chunk, loaded at a word boundary, is the field of the stream there. -/
theorem loadWord_eq_bitField (memory : Nat → BitVec 8) (region : BitMemoryRegion)
    {offset data : Nat} (boundary : region.bit_start_ + offset = data * size_t.width) :
    loadWord size_t memory region.data_ data =
      BitVec.ofNat size_t.width (bitField (bitAt memory) (region.origin + offset) size_t.width) := by
  apply BitVec.eq_of_getLsbD_eq
  intro j inside
  rw [getLsbD_loadWord, BitVec.getLsbD_ofNat, testBit_bitField]
  simp only [inside, decide_true, Bool.true_and, origin]
  congr 1
  omega

/-- The trailing chunk, loaded at a word boundary and masked, is the field of
its remaining bits. -/
theorem trailing_eq_bitField (memory : Nat → BitVec 8) (region : BitMemoryRegion)
    {offset data remaining_bits : Nat} (boundary : region.bit_start_ + offset = data * size_t.width) :
    (loadWord size_t memory region.data_ data &&& ~~~(BitVec.allOnes size_t.width <<< remaining_bits)) =
      BitVec.ofNat size_t.width (bitField (bitAt memory) (region.origin + offset) remaining_bits) := by
  rw [loadWord_eq_bitField memory region boundary]
  apply BitVec.eq_of_getLsbD_eq
  intro j inside
  rw [getLsbD_and_not_allOnes_shiftLeft, BitVec.getLsbD_ofNat, BitVec.getLsbD_ofNat,
    testBit_bitField, testBit_bitField]
  by_cases low : j < remaining_bits
  · simp [low, inside]
  · simp [low]

/-- The leading chunk, up to the first word boundary after the region's start
and at most `length` bits, is the field of the stream there. -/
theorem leading_eq_bitField (memory : Nat → BitVec 8) (region : BitMemoryRegion) {length : Nat}
    (short : length ≤ size_t.width - region.bit_start_ % size_t.width) :
    ((loadWord size_t memory region.data_ (region.bit_start_ / size_t.width) >>>
        (region.bit_start_ % size_t.width)) &&& ~~~(BitVec.allOnes size_t.width <<< length)) =
      BitVec.ofNat size_t.width (bitField (bitAt memory) region.origin length) := by
  apply BitVec.eq_of_getLsbD_eq
  intro j inside
  have position := Nat.div_add_mod region.bit_start_ size_t.width
  rw [getLsbD_and_not_allOnes_shiftLeft, BitVec.getLsbD_ushiftRight, getLsbD_loadWord,
    BitVec.getLsbD_ofNat, testBit_bitField]
  by_cases low : j < length
  · have streamPosition : 8 * region.data_ + region.bit_start_ / size_t.width * size_t.width +
        (region.bit_start_ % size_t.width + j) = region.origin + j := by
      simp only [origin]
      rw [Nat.mul_comm (region.bit_start_ / size_t.width)]
      omega
    simp [low, inside, streamPosition, show region.bit_start_ % size_t.width + j < size_t.width by
      omega]
  · simp [low]

/-- The trailing bits after a whole leading chunk: the leading chunk is the
rest of its word. -/
theorem leading_whole_eq_bitField (memory : Nat → BitVec 8) (region : BitMemoryRegion) :
    loadWord size_t memory region.data_ (region.bit_start_ / size_t.width) >>>
        (region.bit_start_ % size_t.width) =
      BitVec.ofNat size_t.width (bitField (bitAt memory) region.origin
        (size_t.width - region.bit_start_ % size_t.width)) := by
  rw [← leading_eq_bitField memory region (Nat.le_refl _)]
  apply BitVec.eq_of_getLsbD_eq
  intro j inside
  rw [getLsbD_and_not_allOnes_shiftLeft, BitVec.getLsbD_ushiftRight]
  by_cases low : j < size_t.width - region.bit_start_ % size_t.width
  · simp [low]
  · simp only [low, decide_false, Bool.false_and]
    exact BitVec.getLsbD_of_ge _ _ (by omega)

section Visit

variable {σ : Type} {region : BitMemoryRegion} {memoryOf : σ → Nat → BitVec 8}
  {visitor : σ → Nat → Nat → BitVec size_t.width → σ × Bool} {Inv : Nat → σ → Prop}

/-- What a visit ends with: it went through every chunk and `Done` holds of
the state, or the visitor stopped it and `Stopped` holds. -/
def VisitOutcome (Done Stopped : σ → Prop) (result : σ × Bool) : Prop :=
  (result.2 = true ∧ Done result.1) ∨ (result.2 = false ∧ Stopped result.1)

/-- The rule of the chunk loop: a visitor that, on every chunk the loop can
give it, either moves an invariant of the visited prefix forward and goes on,
or stops in a state where `Stopped` holds, makes the loop end with the
invariant of the whole region or with `Stopped`.  The induction follows the
loop, one chunk a step. -/
theorem VisitChunksLoop_rule {Stopped : σ → Prop}
    (step : ∀ state offset num_bits, offset + num_bits ≤ region.bit_size_ → 0 < num_bits →
      num_bits ≤ size_t.width →
      (num_bits = size_t.width → (region.bit_start_ + offset) % size_t.width = 0) →
      Inv offset state →
      VisitOutcome (Inv (offset + num_bits)) Stopped (visitor state offset num_bits
        (BitVec.ofNat size_t.width
          (bitField (bitAt (memoryOf state)) (region.origin + offset) num_bits))))
    (state : σ) (offset remaining_bits data : Nat)
    (covers : offset + remaining_bits = region.bit_size_)
    (boundary : remaining_bits = 0 ∨ region.bit_start_ + offset = data * size_t.width)
    (holds : Inv offset state) :
    VisitOutcome (Inv region.bit_size_) Stopped
      (VisitChunksLoop size_t region memoryOf visitor state offset remaining_bits data) := by
  have widthPositive : 0 < size_t.width := by have := size_t.eight_le_width; omega
  fun_induction VisitChunksLoop size_t region memoryOf visitor state offset remaining_bits data with
  | case1 state offset remaining_bits data whole value next visited inductionHypothesis =>
      have atBoundary : region.bit_start_ + offset = data * size_t.width := by omega
      have stepped := step state offset size_t.width (by omega) widthPositive (Nat.le_refl _)
        (fun _ => by rw [atBoundary]; exact Nat.mul_mod_left data size_t.width) holds
      rw [← loadWord_eq_bitField (memoryOf state) region atBoundary] at stepped
      simp only [value] at visited
      rw [visited] at stepped
      -- The visitor went on, so the invariant moved past this chunk.
      rcases stepped with ⟨-, moved⟩ | ⟨stopped, -⟩
      · exact inductionHypothesis (by omega) (by right; rw [Nat.add_mul]; omega) moved
      · exact absurd stopped (by simp)
  | case2 state offset remaining_bits data whole value next visited =>
      have atBoundary : region.bit_start_ + offset = data * size_t.width := by omega
      have stepped := step state offset size_t.width (by omega) widthPositive (Nat.le_refl _)
        (fun _ => by rw [atBoundary]; exact Nat.mul_mod_left data size_t.width) holds
      rw [← loadWord_eq_bitField (memoryOf state) region atBoundary] at stepped
      simp only [value] at visited
      rw [visited] at stepped
      -- The visitor stopped here.
      rcases stepped with ⟨continued, -⟩ | ⟨-, stopped⟩
      · exact absurd continued (by simp)
      · exact Or.inr ⟨rfl, stopped⟩
  | case3 state offset remaining_bits data belowWord remains value =>
      have atBoundary : region.bit_start_ + offset = data * size_t.width := by omega
      have stepped := step state offset remaining_bits (by omega) (by omega) (by omega)
        (fun whole => absurd whole (by omega)) holds
      rw [← trailing_eq_bitField (memoryOf state) region atBoundary] at stepped
      rw [← covers]
      exact stepped
  | case4 state offset remaining_bits data belowWord done =>
      have finished : remaining_bits = 0 := by omega
      subst finished
      rw [← covers]
      exact Or.inl ⟨rfl, holds⟩

/-- The invariant rule of the chunk loop: a visitor that, on every chunk the
loop can give it, returns `true` and moves an invariant of the visited prefix
forward, keeps it over the whole region. -/
theorem VisitChunksLoop_invariant
    (step : ∀ state offset num_bits, offset + num_bits ≤ region.bit_size_ → 0 < num_bits →
      num_bits ≤ size_t.width →
      (num_bits = size_t.width → (region.bit_start_ + offset) % size_t.width = 0) →
      Inv offset state →
      (visitor state offset num_bits (BitVec.ofNat size_t.width
          (bitField (bitAt (memoryOf state)) (region.origin + offset) num_bits))).2 = true ∧
        Inv (offset + num_bits) (visitor state offset num_bits (BitVec.ofNat size_t.width
          (bitField (bitAt (memoryOf state)) (region.origin + offset) num_bits))).1)
    (state : σ) (offset remaining_bits data : Nat)
    (covers : offset + remaining_bits = region.bit_size_)
    (boundary : remaining_bits = 0 ∨ region.bit_start_ + offset = data * size_t.width)
    (holds : Inv offset state) :
    (VisitChunksLoop size_t region memoryOf visitor state offset remaining_bits data).2 = true ∧
      Inv region.bit_size_ (VisitChunksLoop size_t region memoryOf visitor state offset
        remaining_bits data).1 := by
  -- A visitor that never stops: the rule with nothing to hold when it stops.
  have outcome : VisitOutcome (Inv region.bit_size_) (fun _ => False)
      (VisitChunksLoop size_t region memoryOf visitor state offset remaining_bits data) :=
    VisitChunksLoop_rule (fun state offset num_bits inside positive fits aligned invariant =>
      Or.inl (step state offset num_bits inside positive fits aligned invariant))
      state offset remaining_bits data covers boundary holds
  rcases outcome with done | ⟨-, impossible⟩
  · exact done
  · exact impossible.elim

end Visit

end Values

/-- `CopyBits`, `AndBits`, `OrBits` and `XorBits` of the source: each chunk of
this region is stored back combined, by `combine`, with the same bits of the
source. -/
def CombineBits (combine : BitVec size_t.width → BitVec size_t.width → BitVec size_t.width)
    (memory : Nat → BitVec 8) (region src : BitMemoryRegion) : Nat → BitVec 8 :=
  (VisitChunks size_t region id (fun memory offset num_bits value =>
    (StoreChunk size_t memory region offset
      (combine value (src.LoadBits size_t memory offset num_bits)) num_bits, true)) memory).1

/-- `CopyBits(src)`: the visitor ignores the chunk's own value. -/
def CopyBits (memory : Nat → BitVec 8) (region src : BitMemoryRegion) : Nat → BitVec 8 :=
  CombineBits size_t (fun _ source => source) memory region src

/-- `AndBits(src)`. -/
def AndBits (memory : Nat → BitVec 8) (region src : BitMemoryRegion) : Nat → BitVec 8 :=
  CombineBits size_t (fun value source => value &&& source) memory region src

/-- `OrBits(src)`. -/
def OrBits (memory : Nat → BitVec 8) (region src : BitMemoryRegion) : Nat → BitVec 8 :=
  CombineBits size_t (fun value source => value ||| source) memory region src

/-- `XorBits(src)`. -/
def XorBits (memory : Nat → BitVec 8) (region src : BitMemoryRegion) : Nat → BitVec 8 :=
  CombineBits size_t (fun value source => value ^^^ source) memory region src

section Combine

variable {size_t}

/-- The rule of `VisitChunks`, from the one of its loop: the leading chunk
reaches the first word boundary, or the end of a region that ends before it. -/
theorem VisitChunks_rule {σ : Type} {region : BitMemoryRegion}
    {memoryOf : σ → Nat → BitVec 8} {visitor : σ → Nat → Nat → BitVec size_t.width → σ × Bool}
    {Inv : Nat → σ → Prop} {Stopped : σ → Prop}
    (step : ∀ state offset num_bits, offset + num_bits ≤ region.bit_size_ → 0 < num_bits →
      num_bits ≤ size_t.width →
      (num_bits = size_t.width → (region.bit_start_ + offset) % size_t.width = 0) →
      Inv offset state →
      VisitOutcome (Inv (offset + num_bits)) Stopped (visitor state offset num_bits
        (BitVec.ofNat size_t.width
          (bitField (bitAt (memoryOf state)) (region.origin + offset) num_bits))))
    (state : σ) (holds : Inv 0 state) :
    VisitOutcome (Inv region.bit_size_) Stopped
      (VisitChunks size_t region memoryOf visitor state) := by
  have widthPositive : 0 < size_t.width := by have := size_t.eight_le_width; omega
  have position := Nat.div_add_mod region.bit_start_ size_t.width
  have shiftLt := Nat.mod_lt region.bit_start_ widthPositive
  unfold VisitChunks
  dsimp only
  by_cases empty : region.bit_size_ = 0
  · rw [if_pos empty, empty]
    exact Or.inl ⟨rfl, empty ▸ holds⟩
  rw [if_neg empty]
  by_cases unaligned : region.bit_start_ % size_t.width ≠ 0
  · rw [if_pos unaligned]
    -- the leading chunk, cut at the region's end when it ends inside the first word
    have leading : ∃ leading_bits value, (if size_t.width - region.bit_start_ % size_t.width >
          region.bit_size_ then
        (region.bit_size_, loadWord size_t (memoryOf state) region.data_
            (region.bit_start_ / size_t.width) >>> (region.bit_start_ % size_t.width) &&&
          ~~~(BitVec.allOnes size_t.width <<< region.bit_size_))
        else (size_t.width - region.bit_start_ % size_t.width, loadWord size_t (memoryOf state)
            region.data_ (region.bit_start_ / size_t.width) >>> (region.bit_start_ % size_t.width))) =
          (leading_bits, value) ∧
        value = BitVec.ofNat size_t.width (bitField (bitAt (memoryOf state)) region.origin
          leading_bits) ∧ 0 < leading_bits ∧ leading_bits ≤ region.bit_size_ ∧
        leading_bits ≤ size_t.width - region.bit_start_ % size_t.width ∧
        (leading_bits = region.bit_size_ ∨
          region.bit_start_ + leading_bits = (region.bit_start_ / size_t.width + 1) * size_t.width) := by
      by_cases longer : size_t.width - region.bit_start_ % size_t.width > region.bit_size_
      · rw [if_pos longer]
        exact ⟨_, _, rfl, leading_eq_bitField (memoryOf state) region (by omega), by omega,
          Nat.le_refl _, by omega, Or.inl rfl⟩
      · rw [if_neg longer]
        refine ⟨_, _, rfl, leading_whole_eq_bitField (memoryOf state) region, by omega, by omega,
          Nat.le_refl _, Or.inr ?_⟩
        rw [Nat.add_mul, Nat.mul_comm]
        omega
    obtain ⟨leading_bits, value, split, isField, positive, inside, short, ends⟩ := leading
    rw [split]
    dsimp only
    have stepped := step state 0 leading_bits (by omega) positive (by omega)
      (fun whole => absurd whole (by omega)) holds
    rw [Nat.add_zero, ← isField, Nat.zero_add] at stepped
    rcases visited : visitor state 0 leading_bits value with ⟨next, flag⟩
    rw [visited] at stepped
    -- After the leading chunk the loop goes on from the next word, or the visitor stopped.
    rcases stepped with ⟨continued, nextHolds⟩ | ⟨stopped, nextStopped⟩
    · simp only at continued
      subst continued
      exact VisitChunksLoop_rule step next leading_bits (region.bit_size_ - leading_bits)
        (region.bit_start_ / size_t.width + 1) (by omega) (by omega) nextHolds
    · simp only at stopped
      subst stopped
      exact Or.inr ⟨rfl, nextStopped⟩
  · rw [if_neg unaligned]
    exact VisitChunksLoop_rule step state 0 region.bit_size_ (region.bit_start_ / size_t.width)
      (by omega) (by right; rw [Nat.mul_comm]; omega) holds

/-- The invariant rule of `VisitChunks` for a visitor that never stops. -/
theorem VisitChunks_invariant {σ : Type} {region : BitMemoryRegion}
    {memoryOf : σ → Nat → BitVec 8} {visitor : σ → Nat → Nat → BitVec size_t.width → σ × Bool}
    {Inv : Nat → σ → Prop}
    (step : ∀ state offset num_bits, offset + num_bits ≤ region.bit_size_ → 0 < num_bits →
      num_bits ≤ size_t.width →
      (num_bits = size_t.width → (region.bit_start_ + offset) % size_t.width = 0) →
      Inv offset state →
      (visitor state offset num_bits (BitVec.ofNat size_t.width
          (bitField (bitAt (memoryOf state)) (region.origin + offset) num_bits))).2 = true ∧
        Inv (offset + num_bits) (visitor state offset num_bits (BitVec.ofNat size_t.width
          (bitField (bitAt (memoryOf state)) (region.origin + offset) num_bits))).1)
    (state : σ) (holds : Inv 0 state) :
    (VisitChunks size_t region memoryOf visitor state).2 = true ∧
      Inv region.bit_size_ (VisitChunks size_t region memoryOf visitor state).1 := by
  have outcome : VisitOutcome (Inv region.bit_size_) (fun _ => False)
      (VisitChunks size_t region memoryOf visitor state) :=
    VisitChunks_rule (fun state offset num_bits inside positive fits aligned invariant =>
      Or.inl (step state offset num_bits inside positive fits aligned invariant)) state holds
  rcases outcome with done | ⟨-, impossible⟩
  · exact done
  · exact impossible.elim

/-- Combining a chunk with the source keeps its value below the chunk's
length when the combination keeps zero bits zero. -/
theorem combine_lt {combine : BitVec size_t.width → BitVec size_t.width → BitVec size_t.width}
    {combineBit : Bool → Bool → Bool}
    (pointwise : ∀ x y j, (combine x y).getLsbD j = combineBit (x.getLsbD j) (y.getLsbD j))
    (keepsZero : combineBit false false = false) {value source : BitVec size_t.width}
    {num_bits : Nat} (valueSmall : value.toNat < 2 ^ num_bits)
    (sourceSmall : source.toNat < 2 ^ num_bits) :
    (combine value source).toNat < 2 ^ num_bits := by
  apply Nat.lt_pow_two_of_testBit
  intro j beyond
  have valueBit : value.getLsbD j = false := by
    rw [← BitVec.testBit_toNat]
    exact Nat.testBit_lt_two_pow (lt_of_lt_of_le valueSmall (Nat.pow_le_pow_right (by omega) beyond))
  have sourceBit : source.getLsbD j = false := by
    rw [← BitVec.testBit_toNat]
    exact Nat.testBit_lt_two_pow (lt_of_lt_of_le sourceSmall (Nat.pow_le_pow_right (by omega) beyond))
  rw [BitVec.testBit_toNat, pointwise, valueBit, sourceBit, keepsZero]

/-- `CopyBits` and its bitwise relatives make each bit of the region the
combination of its old value and the old bit at the same offset of the
source, and change no other bit, when the source does not start before the
region inside it: chunks are visited in increasing order, so a source that
starts before the region and overlaps it would be read after being
overwritten. -/
theorem bitAt_CombineBits {combine : BitVec size_t.width → BitVec size_t.width → BitVec size_t.width}
    (combineBit : Bool → Bool → Bool)
    (pointwise : ∀ x y j, (combine x y).getLsbD j = combineBit (x.getLsbD j) (y.getLsbD j))
    (keepsZero : combineBit false false = false)
    (memory : Nat → BitVec 8) (region src : BitMemoryRegion)
    (readsAhead : region.origin ≤ src.origin ∨ src.origin + region.bit_size_ ≤ region.origin) :
    bitAt (CombineBits size_t combine memory region src) = fun bit =>
      if region.origin ≤ bit ∧ bit < region.origin + region.bit_size_ then
        combineBit (bitAt memory bit) (bitAt memory (src.origin + (bit - region.origin)))
      else bitAt memory bit := by
  -- the invariant: the bits of the chunks visited so far are combined, all others are old
  let Combined : Nat → (Nat → BitVec 8) → Prop := fun offset current =>
    bitAt current = fun bit =>
      if region.origin ≤ bit ∧ bit < region.origin + offset then
        combineBit (bitAt memory bit) (bitAt memory (src.origin + (bit - region.origin)))
      else bitAt memory bit
  have start : Combined 0 memory := by
    funext bit
    simp [show ¬ (region.origin ≤ bit ∧ bit < region.origin) by omega]
  have step : ∀ (current : Nat → BitVec 8) offset num_bits, offset + num_bits ≤ region.bit_size_ →
      0 < num_bits → num_bits ≤ size_t.width →
      (num_bits = size_t.width → (region.bit_start_ + offset) % size_t.width = 0) →
      Combined offset current →
      (true = true ∧ Combined (offset + num_bits) (StoreChunk size_t current region offset
        (combine (BitVec.ofNat size_t.width (bitField (bitAt current) (region.origin + offset)
          num_bits)) (src.LoadBits size_t current offset num_bits)) num_bits)) := by
    intro current offset num_bits inRegion positive fits wordAligned holds
    refine ⟨rfl, ?_⟩
    have sourceField : (src.LoadBits size_t current offset num_bits).toNat =
        bitField (bitAt current) (src.origin + offset) num_bits :=
      src.LoadBits_toNat size_t current fits
    have valueSmall : (BitVec.ofNat size_t.width (bitField (bitAt current) (region.origin + offset)
        num_bits)).toNat < 2 ^ num_bits := by
      rw [BitVec.toNat_ofNat]
      exact lt_of_le_of_lt (Nat.mod_le _ _) (bitField_lt _ _ _)
    have sourceSmall : (src.LoadBits size_t current offset num_bits).toNat < 2 ^ num_bits := by
      rw [sourceField]
      exact bitField_lt _ _ _
    have byteAligned : num_bits = size_t.width → (region.bit_start_ + offset) % kBitsPerByte = 0 := by
      intro whole
      have eightDivides : 8 ∣ size_t.width := Nat.dvd_mul_right 8 _
      simp only [kBitsPerByte]
      exact Nat.mod_eq_zero_of_dvd
        (Nat.dvd_trans eightDivides (Nat.dvd_of_mod_eq_zero (wordAligned whole)))
    simp only [Combined]
    rw [bitAt_StoreChunk current region fits (combine_lt pointwise keepsZero valueSmall sourceSmall)
      byteAligned]
    funext bit
    unfold writeField
    by_cases chunk : region.origin + offset ≤ bit ∧ bit < region.origin + offset + num_bits
    · -- a bit of this chunk: both its own and the source's bit are still old
      have inside : region.origin ≤ bit ∧ bit < region.origin + (offset + num_bits) := by omega
      rw [if_pos chunk, if_pos inside, BitVec.testBit_toNat, pointwise, BitVec.getLsbD_ofNat,
        ← BitVec.testBit_toNat, sourceField, testBit_bitField, testBit_bitField]
      have ownOld : bitAt current (region.origin + offset + (bit - (region.origin + offset))) =
          bitAt memory bit := by
        rw [holds, Nat.add_sub_cancel' chunk.1]
        simp [show ¬ bit < region.origin + offset by omega]
      have sourceOld : bitAt current (src.origin + offset + (bit - (region.origin + offset))) =
          bitAt memory (src.origin + (bit - region.origin)) := by
        rw [holds]
        have sameBit : src.origin + offset + (bit - (region.origin + offset)) =
            src.origin + (bit - region.origin) := by omega
        rw [sameBit]
        simp only
        rw [if_neg (by omega)]
      simp [show bit - (region.origin + offset) < num_bits by omega, ownOld, sourceOld,
        show bit - (region.origin + offset) < size_t.width by omega]
    · rw [if_neg chunk, holds]
      by_cases before : region.origin ≤ bit ∧ bit < region.origin + offset
      · simp [before, show region.origin ≤ bit ∧ bit < region.origin + (offset + num_bits) by omega]
      · simp [before, show ¬ (region.origin ≤ bit ∧ bit < region.origin + (offset + num_bits)) by
          omega]
  exact (VisitChunks_invariant step memory start).2

variable (memory : Nat → BitVec 8) (region src : BitMemoryRegion)
  (readsAhead : region.origin ≤ src.origin ∨ src.origin + region.bit_size_ ≤ region.origin)
include readsAhead

theorem bitAt_CopyBits :
    bitAt (region.CopyBits size_t memory src) = fun bit =>
      if region.origin ≤ bit ∧ bit < region.origin + region.bit_size_ then
        bitAt memory (src.origin + (bit - region.origin))
      else bitAt memory bit :=
  bitAt_CombineBits (fun _ source => source) (fun _ _ _ => rfl) rfl memory region src readsAhead

theorem bitAt_AndBits :
    bitAt (region.AndBits size_t memory src) = fun bit =>
      if region.origin ≤ bit ∧ bit < region.origin + region.bit_size_ then
        (bitAt memory bit && bitAt memory (src.origin + (bit - region.origin)))
      else bitAt memory bit :=
  bitAt_CombineBits (· && ·) (fun _ _ _ => BitVec.getLsbD_and) rfl memory region src readsAhead

theorem bitAt_OrBits :
    bitAt (region.OrBits size_t memory src) = fun bit =>
      if region.origin ≤ bit ∧ bit < region.origin + region.bit_size_ then
        (bitAt memory bit || bitAt memory (src.origin + (bit - region.origin)))
      else bitAt memory bit :=
  bitAt_CombineBits (· || ·) (fun _ _ _ => BitVec.getLsbD_or) rfl memory region src readsAhead

theorem bitAt_XorBits :
    bitAt (region.XorBits size_t memory src) = fun bit =>
      if region.origin ≤ bit ∧ bit < region.origin + region.bit_size_ then
        (bitAt memory bit ^^ bitAt memory (src.origin + (bit - region.origin)))
      else bitAt memory bit :=
  bitAt_CombineBits (· ^^ ·) (fun _ _ _ => BitVec.getLsbD_xor) rfl memory region src readsAhead

end Combine

end Chunks

section Laws

/-- After `StoreBits`, `LoadBits` of the same field returns the value stored
and no other bit of memory has changed; `CopyBits`, `AndBits`, `OrBits` and
`XorBits` make each bit of the region the copy, and, or, xor of its old value
and the old bit at the same offset of a source that does not start before the
region inside it, and change no bit outside the region. -/
theorem storeBits_loadBits_and_combineBits (size_t : UnsignedType) (memory : Nat → BitVec 8)
    (region : BitMemoryRegion) :
    (∀ (bit_offset bit_length : Nat) (value : BitVec size_t.width),
      bit_length ≤ size_t.width → value.toNat < 2 ^ bit_length →
        region.LoadBits size_t (region.StoreBits size_t memory bit_offset value bit_length)
            bit_offset bit_length = value ∧
          ∀ bit, bit < region.origin + bit_offset ∨ region.origin + bit_offset + bit_length ≤ bit →
            bitAt (region.StoreBits size_t memory bit_offset value bit_length) bit =
              bitAt memory bit) ∧
    ∀ src : BitMemoryRegion,
      region.origin ≤ src.origin ∨ src.origin + region.bit_size_ ≤ region.origin →
      ∀ bit,
        (region.origin ≤ bit ∧ bit < region.origin + region.bit_size_ →
          bitAt (region.CopyBits size_t memory src) bit =
              bitAt memory (src.origin + (bit - region.origin)) ∧
            bitAt (region.AndBits size_t memory src) bit =
              (bitAt memory bit && bitAt memory (src.origin + (bit - region.origin))) ∧
            bitAt (region.OrBits size_t memory src) bit =
              (bitAt memory bit || bitAt memory (src.origin + (bit - region.origin))) ∧
            bitAt (region.XorBits size_t memory src) bit =
              (bitAt memory bit ^^ bitAt memory (src.origin + (bit - region.origin)))) ∧
        (¬ (region.origin ≤ bit ∧ bit < region.origin + region.bit_size_) →
          bitAt (region.CopyBits size_t memory src) bit = bitAt memory bit ∧
            bitAt (region.AndBits size_t memory src) bit = bitAt memory bit ∧
            bitAt (region.OrBits size_t memory src) bit = bitAt memory bit ∧
            bitAt (region.XorBits size_t memory src) bit = bitAt memory bit) := by
  refine ⟨fun bit_offset bit_length value fits small => ⟨?_, fun bit outside => ?_⟩,
    fun src readsAhead bit => ⟨fun inside => ?_, fun outside => ?_⟩⟩
  · apply BitVec.eq_of_toNat_eq
    rw [LoadBits_toNat _ _ _ fits, bitAt_StoreBits memory region fits small,
      bitField_writeField_self _ _ _ _ small]
  · rw [bitAt_StoreBits memory region fits small, writeField_of_not_mem _ _ _ _ outside]
  · rw [bitAt_CopyBits memory region src readsAhead, bitAt_AndBits memory region src readsAhead,
      bitAt_OrBits memory region src readsAhead, bitAt_XorBits memory region src readsAhead]
    simp only [if_pos inside, and_self]
  · rw [bitAt_CopyBits memory region src readsAhead, bitAt_AndBits memory region src readsAhead,
      bitAt_OrBits memory region src readsAhead, bitAt_XorBits memory region src readsAhead]
    simp only [if_neg outside, and_self]

/-- Memory whose only set bit in its first word is bit 63. -/
def lastBitSet (address : Nat) : BitVec 8 :=
  if address = 7 then 0x80#8 else 0#8

/-- The 64 bits of the first word of memory. -/
def firstWord : BitMemoryRegion :=
  ⟨0, 0, 64, by decide⟩

/-- The 64 bits after the first bit of memory. -/
def firstWordShifted : BitMemoryRegion :=
  ⟨0, 1, 64, by decide⟩

theorem storeBits_seven_bits_at_three_then_copyBits_in_place :
    firstWordShifted.LoadBits UnsignedType.uint64_t
        (firstWordShifted.StoreBits UnsignedType.uint64_t lastBitSet 3
          (BitVec.ofNat UnsignedType.uint64_t.width 100) 7) 3 7 =
      BitVec.ofNat UnsignedType.uint64_t.width 100 ∧
    bitAt (firstWordShifted.CopyBits UnsignedType.uint64_t lastBitSet firstWordShifted) 64 =
      bitAt lastBitSet 64 :=
  ⟨((storeBits_loadBits_and_combineBits UnsignedType.uint64_t lastBitSet firstWordShifted).1 3 7
      (BitVec.ofNat UnsignedType.uint64_t.width 100) (by decide) (by decide)).1,
    (((storeBits_loadBits_and_combineBits UnsignedType.uint64_t lastBitSet firstWordShifted).2
      firstWordShifted (Or.inl (Nat.le_refl _)) 64).1 (by decide)).1⟩

/-- Copying the first word one bit up, over itself, does not copy its old bit
63 to bit 64: the leading chunk of the destination has already written bit 63
with the old bit 62 when the trailing chunk reads it. -/
theorem copyBits_from_overlapping_lower_source_rereads_copied_bit :
    bitAt (firstWordShifted.CopyBits UnsignedType.uint64_t lastBitSet firstWord) 64 = false ∧
      bitAt lastBitSet (firstWord.origin + (64 - firstWordShifted.origin)) = true := by
  have wide : UnsignedType.uint64_t.width = 64 := rfl
  -- the two chunks: bits 1 ..< 64 from the leading chunk, bit 64 from the trailing one
  have chunks : firstWordShifted.CopyBits UnsignedType.uint64_t lastBitSet firstWord =
      firstWordShifted.StoreChunk UnsignedType.uint64_t
        (firstWordShifted.StoreChunk UnsignedType.uint64_t lastBitSet 0
          (firstWord.LoadBits UnsignedType.uint64_t lastBitSet 0 63) 63) 63
        (firstWord.LoadBits UnsignedType.uint64_t
          (firstWordShifted.StoreChunk UnsignedType.uint64_t lastBitSet 0
            (firstWord.LoadBits UnsignedType.uint64_t lastBitSet 0 63) 63) 63 1) 1 := by
    simp only [CopyBits, CombineBits, VisitChunks, firstWordShifted, wide]
    rw [VisitChunksLoop]
    simp [wide]
  have smallLoad : ∀ memory (offset length : Nat), length ≤ 64 →
      (firstWord.LoadBits UnsignedType.uint64_t memory offset length).toNat < 2 ^ length := by
    intro memory offset length short
    rw [LoadBits_toNat _ _ _ (by rw [wide]; exact short)]
    exact bitField_lt _ _ _
  have firstChunk : bitAt (firstWordShifted.StoreChunk UnsignedType.uint64_t lastBitSet 0
        (firstWord.LoadBits UnsignedType.uint64_t lastBitSet 0 63) 63) =
      writeField (bitAt lastBitSet) (firstWordShifted.origin + 0) 63
        (firstWord.LoadBits UnsignedType.uint64_t lastBitSet 0 63).toNat :=
    bitAt_StoreChunk lastBitSet firstWordShifted (by rw [wide]; omega)
      (smallLoad lastBitSet 0 63 (by omega)) (fun whole => by rw [wide] at whole; omega)
  refine ⟨?_, by decide⟩
  rw [chunks, bitAt_StoreChunk _ firstWordShifted (by rw [wide]; omega) (smallLoad _ 63 1 (by omega))
    (fun whole => by rw [wide] at whole; omega)]
  rw [show (64 : Nat) = firstWordShifted.origin + 63 + 0 from rfl, writeField_of_mem _ _ _ _
    (by omega), LoadBits_toNat _ _ _ (by rw [wide]; omega), testBit_bitField, firstChunk]
  rw [show firstWord.origin + 63 + 0 = firstWordShifted.origin + 0 + 62 from rfl,
    writeField_of_mem _ _ _ _ (by omega), LoadBits_toNat _ _ _ (by rw [wide]; omega),
    testBit_bitField]
  decide

end Laws

end BitMemoryRegion

end ArtRuntime.Base
