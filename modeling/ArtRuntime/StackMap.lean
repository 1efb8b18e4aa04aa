import ArtRuntime.BitMemoryRegionCompare
import ArtRuntime.BitTable
import ArtRuntime.Search.PartitionPoint

namespace ArtRuntime.Oat

open ArtRuntime.Base ArtRuntime.Bits ArtRuntime.Search

/-!
# `CodeInfo`: the header flags and the native-pc lookup

`runtime/oat/stack_map.h`: a `CodeInfo` starts with `kNumHeaders` interleaved
varints, the flags first.  `HasFlag` tests one flag without decoding the
header: the low four bits of the first byte are the flags' varint code, which
is the flags themselves up to `kVarintMax`; above it the flags are the first
large header, so their payload is the first one, right after the
`kNumHeaders` codes, and the flag is one bit of it.

The main result, `HasFlag_of_fieldsAt`, is that this fast path agrees with the
full decode for every flag below bit 8, whatever the other headers are and
whatever follows them: it is stated over any memory whose stream holds the
fields `WriteInterleavedVarints` writes, so it holds of the header alone and of
the header with the bit tables after it.

`GetStackMapForNativePcOffset` finds the stack map of a native pc: a binary
search (`std::partition_point`) for the first map that is a catch map or not
below the packed pc, then a scan of the maps at the pc for the first `Default`
or `OSR` one.  On a table in the order `StackMapStream` checks, with packed
pcs whose native pcs fit in 32 bits, it returns the lowest such map of the
whole table, and the invalid row when there is none
(`GetStackMapForNativePcOffset_spec`).  The packed pcs matter: a native pc is
computed in 32 bits, so a packed pc past `2 ^ 32 / alignment` wraps to a small
native pc that the binary search cannot see
(`GetStackMapForNativePcOffset_misses_wrapped_pc`).
-/

/-- `WhichPowerOf2(x)`, for a power of two `x`. -/
def WhichPowerOf2 (x : BitVec 32) : Nat :=
  BitMemoryRegion.CTZ x

theorem WhichPowerOf2_twoPow {k : Nat} (small : k < 32) : WhichPowerOf2 (BitVec.twoPow 32 k) = k := by
  have nonzero : BitVec.twoPow 32 k ≠ 0#32 := by
    intro zero
    have value := congrArg BitVec.toNat zero
    rw [BitVec.toNat_twoPow_of_lt small, BitVec.toNat_ofNat, Nat.zero_mod] at value
    exact absurd value (Nat.two_pow_pos k).ne'
  have lowest := BitVec.getLsbD_true_ctz_of_ne_zero nonzero
  rw [BitVec.getLsbD_twoPow] at lowest
  simp only [Bool.and_eq_true, decide_eq_true_eq] at lowest
  exact lowest.2.symm

namespace CodeInfo

/-- `CodeInfo::Flags`. -/
inductive Flags where
  | kHasInlineInfo
  | kHasShouldDeoptimizeFlag
  | kIsBaseline
  | kIsDebuggable
  deriving DecidableEq, Repr

/-- The flags' values, `1 << 0` to `1 << 3`. -/
def Flags.value : Flags → BitVec 32
  | .kHasInlineInfo => 1 <<< 0
  | .kHasShouldDeoptimizeFlag => 1 <<< 1
  | .kIsBaseline => 1 <<< 2
  | .kIsDebuggable => 1 <<< 3

def kNumHeaders : Nat := 7

/-- `HasFlag<kFlag>(code_info_data)`, the fast path; the check against the
full decode that follows it is a debug-build check. -/
def HasFlag (memory : Nat → BitVec 8) (kFlag : BitVec 32) (code_info_data : Nat) : Bool :=
  let varint := (memory code_info_data).toNat &&& (2 ^ kVarintBits - 1)
  if varint ≤ kVarintMax then (varint &&& kFlag.toNat) != 0
  else
    let bit_offset := kNumHeaders * kVarintBits + WhichPowerOf2 kFlag
    ((memory (code_info_data + bit_offset / kBitsPerByte)).toNat &&&
      (1 <<< (bit_offset % kBitsPerByte))) != 0

def HasInlineInfo (memory : Nat → BitVec 8) (code_info_data : Nat) : Bool :=
  HasFlag memory Flags.kHasInlineInfo.value code_info_data

def HasShouldDeoptimizeFlag (memory : Nat → BitVec 8) (code_info_data : Nat) : Bool :=
  HasFlag memory Flags.kHasShouldDeoptimizeFlag.value code_info_data

def IsBaseline (memory : Nat → BitVec 8) (code_info_data : Nat) : Bool :=
  HasFlag memory Flags.kIsBaseline.value code_info_data

def IsDebuggable (memory : Nat → BitVec 8) (code_info_data : Nat) : Bool :=
  HasFlag memory Flags.kIsDebuggable.value code_info_data

/-- Each flag is a single bit below bit 8. -/
theorem Flags.value_eq_twoPow (flag : Flags) :
    ∃ k < 8, flag.value = BitVec.twoPow 32 k := by
  cases flag with
  | kHasInlineInfo => exact ⟨0, by decide, (BitVec.twoPow_eq 32 0).symm⟩
  | kHasShouldDeoptimizeFlag => exact ⟨1, by decide, (BitVec.twoPow_eq 32 1).symm⟩
  | kIsBaseline => exact ⟨2, by decide, (BitVec.twoPow_eq 32 2).symm⟩
  | kIsDebuggable => exact ⟨3, by decide, (BitVec.twoPow_eq 32 3).symm⟩

/-- A masked value is nonzero exactly when the flag's bit is set. -/
theorem and_twoPow_ne_zero {x : Nat} (k : Nat) : (x &&& 2 ^ k != 0) = x.testBit k := by
  rw [Nat.land_comm, Nat.two_pow_and]
  cases x.testBit k <;> simp

theorem and_twoPow_bne_zero (x : BitVec 32) {k : Nat} (small : k < 32) :
    (x &&& BitVec.twoPow 32 k != 0#32) = x.toNat.testBit k := by
  rw [BitVec.and_twoPow, BitVec.testBit_toNat]
  have nonzero : BitVec.twoPow 32 k ≠ 0#32 := by
    intro zero
    have value := congrArg BitVec.toNat zero
    rw [BitVec.toNat_twoPow_of_lt small, BitVec.toNat_ofNat, Nat.zero_mod] at value
    exact absurd value (Nat.two_pow_pos k).ne'
  cases x.getLsbD k <;> simp [nonzero]

section FastPath

variable (memory : Nat → BitVec 8) (code_info_data : Nat)

/-- The varint `HasFlag` reads is the field of the flags' code. -/
theorem varint_eq_bitField :
    (memory code_info_data).toNat &&& (2 ^ kVarintBits - 1) =
      bitField (bitAt memory) (8 * code_info_data) kVarintBits := by
  rw [Nat.and_two_pow_sub_one_eq_mod, bitField_byte memory code_info_data (by decide)]

/-- The bit `HasFlag` reads above `kVarintMax` is bit `bit_offset` of the
stream from `code_info_data`. -/
theorem and_shiftLeft_bne_zero (bit_offset : Nat) :
    ((memory (code_info_data + bit_offset / kBitsPerByte)).toNat &&&
        (1 <<< (bit_offset % kBitsPerByte)) != 0) =
      bitAt memory (8 * code_info_data + bit_offset) := by
  rw [Nat.one_shiftLeft, and_twoPow_ne_zero, bitAt_eight_mul_add, BitVec.testBit_toNat]
  rfl

/-- The fast path of `HasFlag` agrees with the full decode of the header,
for a flag below bit 8: the small case reads the code, which is then the
flags, and the large case reads bit `k` of the flags' payload, which is the
first payload and has at least eight bits. -/
theorem HasFlag_of_fieldsAt (header : List (BitVec 32)) (length : header.length = kNumHeaders)
    {k : Nat} (small : k < 8)
    (found : FieldsAt (bitAt memory) (8 * code_info_data) (interleavedVarintFields header)) :
    HasFlag memory (BitVec.twoPow 32 k) code_info_data =
      ((header.headD 0 &&& BitVec.twoPow 32 k) != 0#32) := by
  obtain _ | ⟨flags, rest⟩ := header
  · simp [kNumHeaders] at length
  have codesLength : fieldsLength (varintCodeFields (flags :: rest)) = 28 := by
    rw [fieldsLength_varintCodeFields, length]
    rfl
  rw [interleavedVarintFields, fieldsAt_append, codesLength] at found
  obtain ⟨codes, payloads⟩ := found
  rw [varintCodeFields, List.map_cons, fieldsAt_cons] at codes
  have code := codes.1
  rw [List.headD_cons, and_twoPow_bne_zero flags (by omega)]
  unfold HasFlag
  rw [varint_eq_bitField, code]
  by_cases large : flags.toNat > kVarintMax
  · obtain ⟨above, -⟩ := varintCode_of_gt flags large
    rw [if_neg (by omega), WhichPowerOf2_twoPow (by omega)]
    dsimp only
    rw [and_shiftLeft_bne_zero]
    -- the flags' payload is the first, right after the codes
    rw [varintPayloadFields_cons, varintPayloadFields_of_gt flags large, List.cons_append,
      fieldsAt_cons] at payloads
    have wide : 8 ≤ varintPayloadBits flags := by
      have sized : 4 ≤ flags.toNat.size := Nat.lt_size.mpr (by simp only [kVarintMax] at large; omega)
      rw [varintPayloadBits_eq]
      omega
    have bit := testBit_bitField (bitAt memory) (8 * code_info_data + 28) (varintPayloadBits flags) k
    rw [payloads.1] at bit
    simp only [show k < varintPayloadBits flags by omega, decide_true, Bool.true_and] at bit
    rw [bit, kNumHeaders, kVarintBits, Nat.add_assoc]
  · rw [varintCode_of_le flags (by omega), if_pos (by omega), BitVec.toNat_twoPow_of_lt (by omega),
      and_twoPow_ne_zero]

end FastPath

section Header

/-- For every header of `kNumHeaders` values written by
`WriteInterleavedVarints` at the start of any vector, each of the four
flags tested by the fast path of `HasFlag` is the flag's bit of the first
header value that `ReadInterleavedVarints` reads back. -/
theorem HasFlag_agrees_with_header (size_t : UnsignedType) (wide : 32 ≤ size_t.width)
    (memory : Nat → BitVec 8) (out_data out_size : Nat) (header : List (BitVec 32))
    (length : header.length = kNumHeaders) (flag : Flags) :
    let writer := (BitMemoryWriter.create memory out_data out_size 0).WriteInterleavedVarints
      size_t header
    HasFlag writer.memory flag.value out_data =
      ((((BitMemoryReader.create out_data 0).ReadInterleavedVarints size_t writer.memory
        kNumHeaders).1.headD 0 &&& flag.value) != 0#32) := by
  intro writer
  have wrote := (BitMemoryWriter.wrote_create memory out_data out_size 0).WriteInterleavedVarints
    size_t wide header
  rw [List.nil_append] at wrote
  have found : FieldsAt (bitAt writer.memory) (8 * out_data) (interleavedVarintFields header) := by
    simpa [kBitsPerByte] using wrote.holds
  have cursor : (BitMemoryReader.create out_data 0).cursor = 8 * out_data := by
    simpa using BitMemoryReader.cursor_create out_data 0
  have read := BitMemoryReader.ReadInterleavedVarints_fields size_t writer.memory wide header
    (by rw [length]; decide) (BitMemoryReader.create out_data 0) (by rw [cursor]; exact found)
  rw [← length, read]
  obtain ⟨k, small, value⟩ := flag.value_eq_twoPow
  rw [value]
  exact HasFlag_of_fieldsAt writer.memory out_data header length small found

theorem HasFlag_agrees_with_header_large_flags :
    32 ≤ UnsignedType.uint64_t.width ∧ [300#32, 1#32, 2#32, 3#32, 4#32, 5#32, 6#32].length = kNumHeaders ∧
      HasFlag ((BitMemoryWriter.create (fun _ => 0#8) 0 0 0).WriteInterleavedVarints
          UnsignedType.uint64_t [300#32, 1#32, 2#32, 3#32, 4#32, 5#32, 6#32]).memory
          Flags.kIsBaseline.value 0 =
        ((((BitMemoryReader.create 0 0).ReadInterleavedVarints UnsignedType.uint64_t
          ((BitMemoryWriter.create (fun _ => 0#8) 0 0 0).WriteInterleavedVarints
            UnsignedType.uint64_t [300#32, 1#32, 2#32, 3#32, 4#32, 5#32, 6#32]).memory
          kNumHeaders).1.headD 0 &&& Flags.kIsBaseline.value) != 0#32) :=
  ⟨by decide, rfl, HasFlag_agrees_with_header UnsignedType.uint64_t (by decide) (fun _ => 0#8) 0 0
    [300#32, 1#32, 2#32, 3#32, 4#32, 5#32, 6#32] rfl Flags.kIsBaseline⟩

end Header

end CodeInfo

/-! ## Native pcs -/

/-- `InstructionSet`. -/
inductive InstructionSet where
  | kNone
  | kArm
  | kArm64
  | kThumb2
  | kRiscv64
  | kX86
  | kX86_64
  deriving DecidableEq, Repr

def kThumb2InstructionAlignment : Nat := 2
def kArm64InstructionAlignment : Nat := 4
def kRiscv64InstructionAlignment : Nat := 2
def kX86InstructionAlignment : Nat := 1
def kX86_64InstructionAlignment : Nat := 1

/-- `GetInstructionSetInstructionAlignment(isa)`; `kNone` aborts. -/
def GetInstructionSetInstructionAlignment : InstructionSet → Option Nat
  | .kArm | .kThumb2 => some kThumb2InstructionAlignment
  | .kArm64 => some kArm64InstructionAlignment
  | .kRiscv64 => some kRiscv64InstructionAlignment
  | .kX86 => some kX86InstructionAlignment
  | .kX86_64 => some kX86_64InstructionAlignment
  | .kNone => none

theorem alignment_pos {isa : InstructionSet} {alignment : Nat}
    (aligned : GetInstructionSetInstructionAlignment isa = some alignment) : 0 < alignment := by
  cases isa <;> simp only [GetInstructionSetInstructionAlignment, Option.some.injEq,
    reduceCtorEq] at aligned <;> subst aligned <;> decide

namespace StackMap

/-- `StackMap::Kind`. -/
inductive Kind where
  | Default
  | Catch
  | OSR
  | Debug
  deriving DecidableEq, Repr

/-- A kind as the `Kind` column holds it: `Default = -1`, `Catch = 0`,
`OSR = 1`, `Debug = 2`. -/
def Kind.value : Kind → BitVec 32
  | .Default => -1
  | .Catch => 0
  | .OSR => 1
  | .Debug => 2

def kKind : Fin 8 := 0
def kPackedNativePc : Fin 8 := 1

/-- `PackNativePc(native_pc, isa)`, with `isa`'s alignment. -/
def PackNativePc (native_pc : BitVec 32) (alignment : Nat) : BitVec 32 :=
  BitVec.ofNat 32 (native_pc.toNat / alignment)

/-- `UnpackNativePc(packed_native_pc, isa)`, with `isa`'s alignment: the
product is kept in 32 bits; the check that it did not wrap is a debug-build
check. -/
def UnpackNativePc (packed_native_pc : BitVec 32) (alignment : Nat) : BitVec 32 :=
  BitVec.ofNat 32 (packed_native_pc.toNat * alignment)

variable (stack_maps_ : BitTable 8)

/-- `GetKind()` of the map at `row`. -/
def GetKind (row : Nat) : BitVec 32 :=
  stack_maps_.Get (BitVec.ofNat 32 row) kKind

/-- `GetPackedNativePc()` of the map at `row`. -/
def GetPackedNativePc (row : Nat) : BitVec 32 :=
  stack_maps_.Get (BitVec.ofNat 32 row) kPackedNativePc

/-- `GetNativePcOffset(isa)` of the map at `row`. -/
def GetNativePcOffset (row alignment : Nat) : BitVec 32 :=
  UnpackNativePc (GetPackedNativePc stack_maps_ row) alignment

end StackMap

namespace CodeInfo

open StackMap

variable (stack_maps_ : BitTable 8)

/-- The loop of `GetStackMapForNativePcOffset` after the binary search: from
`it`, the maps whose native pc is `pc`, until a `Default` or `OSR` one.  The
iterator starts at most at the end and moves one row at a time, so `it != end`
is `it < end`. -/
def scanNativePc (pc : BitVec 64) (alignment it : Nat) : BitVec 32 :=
  if it < stack_maps_.NumRows.toNat ∧ (GetNativePcOffset stack_maps_ it alignment).setWidth 64 = pc then
    if GetKind stack_maps_ it = Kind.Default.value ∨ GetKind stack_maps_ it = Kind.OSR.value then
      BitVec.ofNat 32 it
    else scanNativePc pc alignment (it + 1)
  else BitTable.GetInvalidRow
termination_by stack_maps_.NumRows.toNat - it

/-- `GetStackMapForNativePcOffset(pc, isa)`: the row of the map found.  The
`uintptr_t` pc is packed as a `uint32_t`, and compared in full with each
map's native pc. -/
def GetStackMapForNativePcOffset (pc : BitVec 64) (isa : InstructionSet) : Option (BitVec 32) :=
  (GetInstructionSetInstructionAlignment isa).map fun alignment =>
    let packed_pc := PackNativePc (pc.setWidth 32) alignment
    -- Binary search.  All catch stack maps are stored separately at the end.
    let it := partitionPoint (fun row => decide (GetPackedNativePc stack_maps_ row < packed_pc) &&
      GetKind stack_maps_ row != Kind.Catch.value) 0 stack_maps_.NumRows.toNat
    scanNativePc stack_maps_ pc alignment it

/-- The order `StackMapStream::BeginStackMapEntry` checks between a map and
the next: only catch maps after a catch map, and the non-catch maps in
non-decreasing packed native pc. -/
def CatchMapsLast : Prop :=
  ∀ row, row + 1 < stack_maps_.NumRows.toNat →
    (GetKind stack_maps_ row = Kind.Catch.value →
      GetKind stack_maps_ (row + 1) = Kind.Catch.value) ∧
    (GetKind stack_maps_ row ≠ Kind.Catch.value → GetKind stack_maps_ (row + 1) ≠ Kind.Catch.value →
      GetPackedNativePc stack_maps_ row ≤ GetPackedNativePc stack_maps_ (row + 1))

/-- Every native pc of the table is its packed pc times the alignment, with
no wrap: what `PackNativePc` of a `uint32_t` pc gives. -/
def NativePcsFit (alignment : Nat) : Prop :=
  ∀ row < stack_maps_.NumRows.toNat, (GetPackedNativePc stack_maps_ row).toNat * alignment < 2 ^ 32

/-- The map at `row` is at native pc `pc`. -/
def AtNativePc (pc : BitVec 64) (alignment row : Nat) : Prop :=
  (GetNativePcOffset stack_maps_ row alignment).setWidth 64 = pc

/-- The map at `row` is a `Default` or `OSR` map at native pc `pc`: what the
lookup looks for. -/
def IsLookupTarget (pc : BitVec 64) (alignment row : Nat) : Prop :=
  (GetKind stack_maps_ row = Kind.Default.value ∨ GetKind stack_maps_ row = Kind.OSR.value) ∧
    AtNativePc stack_maps_ pc alignment row

/-- The lookup's result: the lowest target as an accessor row, or the invalid
row when the table has no target. -/
def IsLowestTarget (pc : BitVec 64) (alignment : Nat) (row : BitVec 32) : Prop :=
  (∃ r < stack_maps_.NumRows.toNat, IsLookupTarget stack_maps_ pc alignment r ∧
      (∀ r' < r, ¬ IsLookupTarget stack_maps_ pc alignment r') ∧ row = BitVec.ofNat 32 r) ∨
    ((∀ r < stack_maps_.NumRows.toNat, ¬ IsLookupTarget stack_maps_ pc alignment r) ∧
      row = BitTable.GetInvalidRow)

/-- The binary search's predicate: a non-catch map below the packed pc. -/
def beforeNativePc (packed_pc : BitVec 32) (row : Nat) : Bool :=
  decide (GetPackedNativePc stack_maps_ row < packed_pc) && GetKind stack_maps_ row != Kind.Catch.value

section Lookup

variable {stack_maps_ : BitTable 8} {pc : BitVec 64} {alignment : Nat}

/-- A packed pc of a `uint32_t` pc has a native pc that fits in 32 bits. -/
theorem PackNativePc_mul_lt (native_pc : BitVec 32) :
    (PackNativePc native_pc alignment).toNat * alignment < 2 ^ 32 := by
  have quotient : native_pc.toNat / alignment * alignment ≤ native_pc.toNat := Nat.div_mul_le_self _ _
  have bounded := native_pc.isLt
  rw [PackNativePc, BitVec.toNat_ofNat, Nat.mod_eq_of_lt (by
    have := Nat.div_le_self native_pc.toNat alignment
    omega)]
  omega

theorem toNat_PackNativePc (native_pc : BitVec 32) :
    (PackNativePc native_pc alignment).toNat = native_pc.toNat / alignment := by
  rw [PackNativePc, BitVec.toNat_ofNat, Nat.mod_eq_of_lt]
  exact Nat.lt_of_le_of_lt (Nat.div_le_self _ _) native_pc.isLt

/-- With no wrap, a map is at `pc` when its packed pc times the alignment is
`pc`. -/
theorem atNativePc_iff {row : Nat}
    (fits : (GetPackedNativePc stack_maps_ row).toNat * alignment < 2 ^ 32) :
    AtNativePc stack_maps_ pc alignment row ↔
      (GetPackedNativePc stack_maps_ row).toNat * alignment = pc.toNat := by
  have native : (GetNativePcOffset stack_maps_ row alignment).toNat =
      (GetPackedNativePc stack_maps_ row).toNat * alignment := by
    rw [GetNativePcOffset, UnpackNativePc, BitVec.toNat_ofNat, Nat.mod_eq_of_lt fits]
  rw [AtNativePc, ← BitVec.toNat_inj, BitVec.toNat_setWidth, native,
    Nat.mod_eq_of_lt (Nat.lt_trans fits (Nat.pow_lt_pow_right (by decide) (by decide)))]

/-- Catch maps last, read over any two maps: a non-catch map has only
non-catch maps before it, at packed pcs no higher than its own. -/
theorem CatchMapsLast.pairwise (ordered : CatchMapsLast stack_maps_) {i j : Nat} (le : i ≤ j)
    (inside : j < stack_maps_.NumRows.toNat) (notCatch : GetKind stack_maps_ j ≠ Kind.Catch.value) :
    GetKind stack_maps_ i ≠ Kind.Catch.value ∧
      GetPackedNativePc stack_maps_ i ≤ GetPackedNativePc stack_maps_ j := by
  induction j, le using Nat.le_induction with
  | base => exact ⟨notCatch, BitVec.le_refl _⟩
  | succ j le inductionHypothesis =>
    have step := ordered j inside
    have previous : GetKind stack_maps_ j ≠ Kind.Catch.value := fun isCatch => notCatch (step.1 isCatch)
    obtain ⟨first, below⟩ := inductionHypothesis (by omega) previous
    exact ⟨first, BitVec.le_trans below (step.2 previous notCatch)⟩

/-- On a table with its catch maps last, the binary search's predicate
partitions the table. -/
theorem partitioned_beforeNativePc (ordered : CatchMapsLast stack_maps_) (packed_pc : BitVec 32) :
    Partitioned (beforeNativePc stack_maps_ packed_pc) 0 stack_maps_.NumRows.toNat := by
  intro i j _ le inside holds
  simp only [beforeNativePc, Bool.and_eq_true, decide_eq_true_eq, bne_iff_ne, ne_eq] at holds ⊢
  obtain ⟨notCatch, below⟩ := ordered.pairwise le (by omega) holds.2
  rw [BitVec.le_def] at below
  rw [BitVec.lt_def] at holds ⊢
  exact ⟨by omega, notCatch⟩

/-- A map below the packed pc searched for is below `pc`. -/
theorem not_atNativePc_of_lt (positive : 0 < alignment) {row : Nat}
    (fits : (GetPackedNativePc stack_maps_ row).toNat * alignment < 2 ^ 32)
    (below : GetPackedNativePc stack_maps_ row < PackNativePc (pc.setWidth 32) alignment) :
    ¬ AtNativePc stack_maps_ pc alignment row := by
  rw [atNativePc_iff fits]
  rw [BitVec.lt_def, toNat_PackNativePc, BitVec.toNat_setWidth] at below
  have lower : ((GetPackedNativePc stack_maps_ row).toNat + 1) * alignment ≤ pc.toNat % 2 ^ 32 :=
    (Nat.le_div_iff_mul_le positive).mp below
  have wrapped : pc.toNat % 2 ^ 32 ≤ pc.toNat := Nat.mod_le _ _
  rw [Nat.succ_mul] at lower
  omega

/-- From the end of the binary search on, the maps before a target are at
the target's pc: they are non-catch maps, as the target is, so their packed
pcs lie between the packed pc searched for and the target's, which is that
packed pc. -/
theorem atNativePc_before_target (positive : 0 < alignment) (ordered : CatchMapsLast stack_maps_)
    (fit : NativePcsFit stack_maps_ alignment) {r r' : Nat}
    (notBefore : beforeNativePc stack_maps_ (PackNativePc (pc.setWidth 32) alignment) r' = false)
    (earlier : r' ≤ r) (inside : r < stack_maps_.NumRows.toNat)
    (target : IsLookupTarget stack_maps_ pc alignment r) :
    AtNativePc stack_maps_ pc alignment r' := by
  have targetNotCatch : GetKind stack_maps_ r ≠ Kind.Catch.value := by
    rcases target.1 with isDefault | isOsr
    · rw [isDefault]; decide
    · rw [isOsr]; decide
  obtain ⟨notCatch, below⟩ := ordered.pairwise earlier inside targetNotCatch
  have notLower : ¬ GetPackedNativePc stack_maps_ r' < PackNativePc (pc.setWidth 32) alignment := by
    simpa [beforeNativePc, notCatch] using notBefore
  have atTarget := (atNativePc_iff (fit r inside)).mp target.2
  rw [atNativePc_iff (fit r' (by omega))]
  rw [BitVec.lt_def, toNat_PackNativePc, BitVec.toNat_setWidth,
    Nat.mod_eq_of_lt (show pc.toNat < 2 ^ 32 by have := fit r inside; omega), ← atTarget,
    Nat.mul_div_cancel _ positive] at notLower
  rw [BitVec.le_def] at below
  have same : (GetPackedNativePc stack_maps_ r').toNat = (GetPackedNativePc stack_maps_ r).toNat := by
    omega
  rw [same, atTarget]

/-- The scan from `it` returns the first target from `it` if it reaches one,
and otherwise the invalid row, with a map not at `pc` before each target. -/
theorem scanNativePc_spec (it : Nat) :
    (∃ r, it ≤ r ∧ r < stack_maps_.NumRows.toNat ∧ IsLookupTarget stack_maps_ pc alignment r ∧
        (∀ r', it ≤ r' → r' < r → ¬ IsLookupTarget stack_maps_ pc alignment r') ∧
        scanNativePc stack_maps_ pc alignment it = BitVec.ofNat 32 r) ∨
      (scanNativePc stack_maps_ pc alignment it = BitTable.GetInvalidRow ∧
        ∀ r, it ≤ r → r < stack_maps_.NumRows.toNat → IsLookupTarget stack_maps_ pc alignment r →
          ∃ r', it ≤ r' ∧ r' < r ∧ ¬ AtNativePc stack_maps_ pc alignment r') := by
  fun_induction scanNativePc stack_maps_ pc alignment it with
  | case1 it atPc isTarget =>
    exact Or.inl ⟨it, Nat.le_refl _, atPc.1, ⟨isTarget, atPc.2⟩,
      fun r' low high => absurd high (by omega), rfl⟩
  | case2 it atPc notTarget inductionHypothesis =>
    -- a map at `pc` that is neither `Default` nor `OSR`: the scan goes on
    rcases inductionHypothesis with ⟨r, after, inside, target, first, returned⟩ | ⟨returned, blocked⟩
    · refine Or.inl ⟨r, by omega, inside, target, ?_, returned⟩
      intro r' low high target'
      rcases Nat.eq_or_lt_of_le low with same | later
      · subst same
        exact notTarget target'.1
      · exact first r' later high target'
    · refine Or.inr ⟨returned, ?_⟩
      intro r low inside target
      rcases Nat.eq_or_lt_of_le low with same | later
      · subst same
        exact absurd target.1 notTarget
      · obtain ⟨r', low', high', notAt⟩ := blocked r later inside target
        exact ⟨r', by omega, high', notAt⟩
  | case3 it stops =>
    refine Or.inr ⟨rfl, ?_⟩
    intro r low inside target
    rcases Nat.eq_or_lt_of_le low with same | later
    · subst same
      exact absurd ⟨inside, target.2⟩ stops
    · exact ⟨it, Nat.le_refl _, later, fun atPc => stops ⟨by omega, atPc⟩⟩

/-- On a table with its catch maps last and native pcs that fit in 32 bits,
the lookup returns the lowest `Default` or `OSR` map at `pc`, or the invalid
row when there is none.  No map before the end of the binary search is at
`pc`, and every target after it is reached by the scan. -/
theorem GetStackMapForNativePcOffset_spec {isa : InstructionSet}
    (aligned : GetInstructionSetInstructionAlignment isa = some alignment)
    (ordered : CatchMapsLast stack_maps_) (fit : NativePcsFit stack_maps_ alignment) :
    ∃ row, GetStackMapForNativePcOffset stack_maps_ pc isa = some row ∧
      IsLowestTarget stack_maps_ pc alignment row := by
  have positive := alignment_pos aligned
  let packed_pc := PackNativePc (pc.setWidth 32) alignment
  have partitioned := partitioned_beforeNativePc ordered packed_pc
  have point := partitionPoint_spec partitioned
  set it := partitionPoint (beforeNativePc stack_maps_ packed_pc) 0 stack_maps_.NumRows.toNat
  have lookup : GetStackMapForNativePcOffset stack_maps_ pc isa =
      some (scanNativePc stack_maps_ pc alignment it) := by
    simp only [GetStackMapForNativePcOffset, aligned, Option.map_some]
    rfl
  -- no target lies before the end of the binary search
  have noneBefore : ∀ r < it, ¬ IsLookupTarget stack_maps_ pc alignment r := by
    intro r below target
    have holds := point.holds_below r (Nat.zero_le _) below
    simp only [beforeNativePc, Bool.and_eq_true, decide_eq_true_eq] at holds
    have inside : r < stack_maps_.NumRows.toNat := by
      have := point.le_last
      omega
    exact not_atNativePc_of_lt positive (fit r inside) holds.1 target.2
  refine ⟨_, lookup, ?_⟩
  rcases @scanNativePc_spec stack_maps_ pc alignment it with
    ⟨r, after, inside, target, first, returned⟩ | ⟨returned, blocked⟩
  · refine Or.inl ⟨r, inside, target, ?_, returned⟩
    intro r' below target'
    by_cases early : r' < it
    · exact noneBefore r' early target'
    · exact first r' (by omega) below target'
  · refine Or.inr ⟨?_, returned⟩
    intro r inside target
    by_cases early : r < it
    · exact noneBefore r early target
    · obtain ⟨r', low, high, notAt⟩ := blocked r (by omega) inside target
      exact notAt (atNativePc_before_target positive ordered fit
        (point.fails_after partitioned low (by omega)) (by omega) inside target)

/-- A valid row is never the invalid row: the rows are fewer than `2 ^ 32`. -/
theorem ofNat_ne_GetInvalidRow {r : Nat} (inside : r < stack_maps_.NumRows.toNat) :
    BitVec.ofNat 32 r ≠ BitTable.GetInvalidRow := by
  intro same
  have values := congrArg BitVec.toNat same
  have bounded := stack_maps_.NumRows.isLt
  rw [BitVec.toNat_ofNat, Nat.mod_eq_of_lt (by omega)] at values
  simp [BitTable.GetInvalidRow] at values
  omega

/-- On a table in the order `StackMapStream` checks, whose native pcs fit in
32 bits, the lookup of any pc returns the lowest `Default` or `OSR` map at
that pc, and the invalid row exactly when there is none. -/
theorem native_pc_lookup_returns_lowest_target (stack_maps_ : BitTable 8) (pc : BitVec 64)
    {isa : InstructionSet} {alignment : Nat}
    (aligned : GetInstructionSetInstructionAlignment isa = some alignment)
    (ordered : CatchMapsLast stack_maps_) (fit : NativePcsFit stack_maps_ alignment) :
    ∃ row, GetStackMapForNativePcOffset stack_maps_ pc isa = some row ∧
      IsLowestTarget stack_maps_ pc alignment row ∧
      (row = BitTable.GetInvalidRow ↔
        ∀ r < stack_maps_.NumRows.toNat, ¬ IsLookupTarget stack_maps_ pc alignment r) := by
  obtain ⟨row, lookup, lowest⟩ := @GetStackMapForNativePcOffset_spec stack_maps_ pc alignment isa
    aligned ordered fit
  refine ⟨row, lookup, lowest, ?_⟩
  rcases lowest with ⟨r, inside, target, -, found⟩ | ⟨none, invalid⟩
  · constructor
    · intro invalid
      exact absurd (found.symm.trans invalid) (ofNat_ne_GetInvalidRow inside)
    · intro none
      exact absurd target (none r inside)
  · exact ⟨fun _ => none, fun _ => invalid⟩

end Lookup

/-- A table of stack maps, each a kind and a packed native pc, with the other
columns zero. -/
def tableOfMaps (maps : List (Kind × BitVec 32)) : BitTable 8 where
  NumRows := BitVec.ofNat 32 maps.length
  Get row column :=
    let map := maps.getD row.toNat (Kind.Catch, 0)
    if column = kKind then map.1.value else if column = kPackedNativePc then map.2 else 0

/-- A `Debug` and a `Default` map at packed pc 1, then a catch map. -/
def debugThenDefaultTable : BitTable 8 :=
  tableOfMaps [(.Debug, 1), (.Default, 1), (.Catch, 1)]

theorem native_pc_lookup_skips_debug_map :
    GetInstructionSetInstructionAlignment .kArm64 = some 4 ∧ CatchMapsLast debugThenDefaultTable ∧
      NativePcsFit debugThenDefaultTable 4 ∧
      ∃ row, GetStackMapForNativePcOffset debugThenDefaultTable 4 .kArm64 = some row ∧
        IsLowestTarget debugThenDefaultTable 4 4 row ∧
        (row = BitTable.GetInvalidRow ↔
          ∀ r < debugThenDefaultTable.NumRows.toNat, ¬ IsLookupTarget debugThenDefaultTable 4 4 r) := by
  have ordered : CatchMapsLast debugThenDefaultTable := by
    intro row inside
    obtain _ | _ | row := row
    · decide
    · decide
    · simp [debugThenDefaultTable, tableOfMaps] at inside
      omega
  have fit : NativePcsFit debugThenDefaultTable 4 := by
    unfold NativePcsFit
    decide
  exact ⟨rfl, ordered, fit, native_pc_lookup_returns_lowest_target debugThenDefaultTable 4 rfl ordered fit⟩

/-- Three maps: `Debug` at packed pc 1, `Default` at 2, and `Default` at
`2 ^ 30 + 1`, whose native pc on arm64 wraps to 4. -/
def wrappedNativePcTable : BitTable 8 :=
  tableOfMaps [(.Debug, 1), (.Default, 2), (.Default, BitVec.ofNat 32 (2 ^ 30 + 1))]

/-- On a table in the checked order whose last native pc wraps, the lookup of
pc 4 stops at the map at native pc 8 and returns the invalid row, although the
third map is a `Default` map at native pc 4. -/
theorem GetStackMapForNativePcOffset_misses_wrapped_pc :
    CatchMapsLast wrappedNativePcTable ∧ IsLookupTarget wrappedNativePcTable 4 kArm64InstructionAlignment 2 ∧
      GetStackMapForNativePcOffset wrappedNativePcTable 4 .kArm64 = some BitTable.GetInvalidRow := by
  refine ⟨?_, ?_, by decide +kernel⟩
  · intro row inside
    obtain _ | _ | row := row
    · decide
    · decide
    · simp [wrappedNativePcTable, tableOfMaps] at inside
      omega
  · unfold IsLookupTarget AtNativePc
    decide

end CodeInfo

end ArtRuntime.Oat
