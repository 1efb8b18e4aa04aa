import ArtRuntime.DexInstruction

namespace ArtRuntime.Dex

/-!
# `fill-array-data` from the verifier to the runtime and the compiler

Three components read the same `array-data` payload and each recomputes its
size in its own integer types:

* `MethodVerifier::CheckArrayData` checks that the payload lies inside the code
  item, with `uint32_t` arithmetic for `table_size`;
* `FillArrayData` (`entrypoint_utils.cc`) compares the `int32_t` reading of
  `element_count` with the array length and `memcpy`s
  `element_count * element_width` bytes, again in `uint32_t`;
* `HInstructionBuilder::BuildFillArrayData` reads `data[i]` for every
  `i < element_count`.

The model keeps every reduction of the source.  Reads of code units are
recorded (`CodeItem.read`), so that "reads only `insns[0..n)`" is a statement
about the log.
-/

open FixedWidth

/-- The fields of `Instruction::ArrayDataPayload` at code unit `offset`. -/
structure ArrayDataPayload where
  ident : Nat
  element_width : Nat
  element_count : Nat
  deriving Repr, DecidableEq

/-- The payload header stored at code unit `offset` (little-endian halves). -/
def PayloadAt (code : CodeItem) (offset : Int) : ArrayDataPayload where
  ident := (code.unitAt offset).toNat
  element_width := (code.unitAt (offset + 1)).toNat
  element_count := word32 (code.unitAt (offset + 2)).toNat (code.unitAt (offset + 3)).toNat

/-- `Instruction::VRegB_31t`: the signed 32-bit operand in the two code units
after the opcode. -/
def VRegB_31t (code : CodeItem) (pc : Int) : Int :=
  toInt32 ((code.unitAt (pc + 1)).toNat ||| (code.unitAt (pc + 2)).toNat <<< 16)

theorem VRegB_31t_bounds (code : CodeItem) (pc : Int) :
    -2 ^ 31 ≤ VRegB_31t code pc ∧ VRegB_31t code pc < 2 ^ 31 :=
  toInt32_bounds _

/--
`MethodVerifier::CheckArrayData(cur_offset)` for the `fill-array-data` at
`cur_offset`.  `isOpcode` is the verifier's instruction flags, as
`ComputeWidthsAndCountOps` left them.  The code item's `insns` are 4-byte
aligned, so `IsAligned<4>(array_data)` is the evenness of its code-unit offset.
-/
def CheckArrayData
    (code : CodeItem)
    (isOpcode : Nat → Bool)
    (cur_offset : Nat) :
    StateM (List Int) Bool := do
  let insn_count := code.insnsSize
  let insns1 ← code.read (cur_offset + 1)
  let insns2 ← code.read (cur_offset + 2)
  let array_data_offset : Int := toInt32 (insns1 ||| insns2 <<< 16)
  -- make sure the start of the array data table is in range
  if toInt32 (toInt32 cur_offset + array_data_offset) < 0 ∨
      truncU32 (cur_offset + array_data_offset + 2) ≥ insn_count then
    return false
  -- offset to array data table is a relative branch-style offset
  let array_data : Int := cur_offset + array_data_offset
  if array_data % 2 ≠ 0 then
    return false
  if !isOpcode (truncU32 (cur_offset + array_data_offset)) then
    return false
  let value_width ← code.read (array_data + 1)
  let count_low ← code.read (array_data + 2)
  let count_high ← code.read (array_data + 3)
  let value_count := word32 count_low count_high
  let table_size := truncU32 (4 + truncU32 (truncU32 (value_width * value_count) + 1) / 2)
  -- make sure the end of the switch is in range
  if truncU32 (cur_offset + array_data_offset + table_size) > insn_count then
    return false
  return true

/-- The outcome of the runtime's `FillArrayData`. -/
inductive FillArrayDataOutcome where
  | nullPointerException
  | arrayIndexOutOfBoundsException
  /-- `memcpy` of this many bytes from the payload's data to the array's data. -/
  | copied (size_in_bytes : Nat)
  deriving Repr, DecidableEq

/--
`FillArrayData(obj, payload)`: `arrayLength` is `none` for a null reference.
The length check compares the `int32_t` reading of `element_count`, and the
copied size is a `uint32_t` product.
-/
def FillArrayData
    (arrayLength : Option Nat)
    (payload : ArrayDataPayload) :
    FillArrayDataOutcome :=
  match arrayLength with
  | none => .nullPointerException
  | some length =>
      if toInt32 payload.element_count > length then
        .arrayIndexOutOfBoundsException
      else
        .copied (truncU32 (payload.element_count * payload.element_width))

/--
Memory safety of one `FillArrayData`: a copy reads only payload bytes inside
the code item (`dataBytes` of them follow the payload header) and writes only
inside the array's data (`length * componentSize` bytes).
-/
def FillArrayDataOutcome.InBounds
    (dataBytes arrayBytes : Nat) :
    FillArrayDataOutcome → Prop
  | .copied size => size ≤ dataBytes ∧ size ≤ arrayBytes
  | _ => True

instance FillArrayDataOutcome.decidableInBounds
    (dataBytes arrayBytes : Nat) :
    (outcome : FillArrayDataOutcome) → Decidable (outcome.InBounds dataBytes arrayBytes)
  | .nullPointerException => isTrue trivial
  | .arrayIndexOutOfBoundsException => isTrue trivial
  | .copied size => inferInstanceAs (Decidable (size ≤ dataBytes ∧ size ≤ arrayBytes))

/-- The byte at byte offset `offset` from `insns[0]`; code units are little-endian. -/
def CodeItem.byteAt (code : CodeItem) (offset : Int) : Nat :=
  let unit := (code.unitAt (offset / 2)).toNat
  if offset % 2 = 0 then unit % 256 else unit / 256

/-- The code units that hold the `width` bytes starting at byte `offset`. -/
def ElementUnits (offset : Int) (width : Nat) : List Int :=
  (List.range width).map fun (byte : Nat) => (offset + byte) / 2

/-- Read the little-endian signed element of `width` bytes at byte `offset`,
recording the code units it touches. -/
def CodeItem.readElement (code : CodeItem) (offset : Int) (width : Nat) :
    StateM (List Int) Int :=
  fun reads =>
    let value := (List.range width).foldr
      (fun (byte : Nat) rest => code.byteAt (offset + byte) + 256 * rest) 0
    let signed : Int := if value < 2 ^ (8 * width - 1) then value else value - 2 ^ (8 * width)
    (signed, reads ++ ElementUnits offset width)

/-- `DataType::Type` of the array stores that the compiler emits. -/
inductive ArraySetType where
  | kInt8 | kInt16 | kInt32 | kInt64
  deriving Repr, DecidableEq

/-- One `HArraySet(object, index, value, type)` appended by the builder. -/
structure ArraySet where
  index : Nat
  value : Int
  type : ArraySetType
  deriving Repr, DecidableEq

/-- `int32_t payload_offset = instruction.VRegB_31t() + dex_pc` in the builder. -/
def BuilderPayloadOffset (code : CodeItem) (dex_pc : Nat) : Int :=
  toInt32 (VRegB_31t code dex_pc + dex_pc)

/-- The value that `readElement` returns. -/
def CodeItem.elementValue (code : CodeItem) (offset : Int) (width : Nat) : Int :=
  ((code.readElement offset width).run []).1

/-- An element read followed by the rest of a computation. -/
@[simp] theorem CodeItem.readElement_bind_run
    {α : Type}
    (code : CodeItem)
    (offset : Int)
    (width : Nat)
    (next : Int → StateM (List Int) α)
    (reads : List Int) :
    (code.readElement offset width >>= next).run reads =
      (next (code.elementValue offset width)).run (reads ++ ElementUnits offset width) := rfl

/-- The loop of `BuildFillArrayData<T>` (and `BuildFillWideArrayData`): one
store for every `i < element_count`, reading `data[i]`. -/
def BuildFillArrayDataLoop
    (code : CodeItem)
    (data : Int)
    (width : Nat)
    (type : ArraySetType)
    (element_count : Nat) :
    StateM (List Int) (List ArraySet) :=
  (List.range element_count).mapM fun (i : Nat) => do
    let value ← code.readElement (data + (i * width : Nat)) width
    pure { index := i, value := value, type := type }

/--
`HInstructionBuilder::BuildFillArrayData(instruction, dex_pc)`: the stores it
appends, or `none` for the `LOG(FATAL)` on an unknown element width.  The
payload's `data` starts eight bytes after its header.
-/
def BuildFillArrayData
    (code : CodeItem)
    (dex_pc : Nat) :
    StateM (List Int) (Option (List ArraySet)) := do
  let payload_offset := BuilderPayloadOffset code dex_pc
  let payload := PayloadAt code payload_offset
  let data := 2 * payload_offset + 8
  let element_count := payload.element_count
  -- For empty payload we emit only the null check.
  if element_count = 0 then
    return some []
  match payload.element_width with
  | 1 => some <$> BuildFillArrayDataLoop code data 1 .kInt8 element_count
  | 2 => some <$> BuildFillArrayDataLoop code data 2 .kInt16 element_count
  | 4 => some <$> BuildFillArrayDataLoop code data 4 .kInt32 element_count
  | 8 => some <$> BuildFillArrayDataLoop code data 8 .kInt64 element_count
  | _ => return none

/-! ## What `CheckArrayData` accepts -/

/-- The code-unit offset of the payload named by the `fill-array-data` at `pc`. -/
def PayloadOffset (code : CodeItem) (pc : Nat) : Int :=
  pc + VRegB_31t code pc

/-- The `uint32_t` table size that `CheckArrayData` computes for a payload. -/
def CheckedTableSize (payload : ArrayDataPayload) : Nat :=
  truncU32 (4 + truncU32 (truncU32 (payload.element_width * payload.element_count) + 1) / 2)

/-- The payload's extent in code units, computed without any reduction. -/
def TrueTableSize (payload : ArrayDataPayload) : Nat :=
  4 + (payload.element_width * payload.element_count + 1) / 2

/-- The tests of `CheckArrayData`, all passed. -/
structure ArrayDataAccepted
    (code : CodeItem)
    (isOpcode : Nat → Bool)
    (cur_offset : Nat) : Prop where
  startNonneg : 0 ≤ toInt32 (toInt32 cur_offset + VRegB_31t code cur_offset)
  startInRange : truncU32 (PayloadOffset code cur_offset + 2) < code.insnsSize
  aligned : PayloadOffset code cur_offset % 2 = 0
  visited : isOpcode (truncU32 (PayloadOffset code cur_offset)) = true
  endInRange :
    truncU32 (PayloadOffset code cur_offset +
        CheckedTableSize (PayloadAt code (PayloadOffset code cur_offset))) ≤
      code.insnsSize


section CheckArrayDataSpec

variable {code : CodeItem} {isOpcode : Nat → Bool} {cur_offset : Nat}

/-- An accepting run of `CheckArrayData` reads the two operand units and the
three header units after the payload's signature, in this order. -/
theorem CheckArrayData_run_of_accepted
    (accepted : ArrayDataAccepted code isOpcode cur_offset)
    (reads : List Int) :
    (CheckArrayData code isOpcode cur_offset).run reads =
      (true, reads ++
        [(cur_offset : Int) + 1, (cur_offset : Int) + 2,
          PayloadOffset code cur_offset + 1, PayloadOffset code cur_offset + 2,
          PayloadOffset code cur_offset + 3]) := by
  obtain ⟨startNonneg, startInRange, aligned, visited, endInRange⟩ := accepted
  simp only [PayloadOffset, VRegB_31t, CheckedTableSize, PayloadAt] at *
  simp only [CheckArrayData, CodeItem.read_bind_run, Int.not_lt.mpr startNonneg,
    Nat.not_le.mpr startInRange, or_self, if_false, aligned, ne_eq, not_true_eq_false,
    visited, Bool.not_true, Bool.false_eq_true, gt_iff_lt, Nat.not_lt.mpr endInRange,
    List.append_assoc, List.cons_append, List.nil_append]
  rfl

/-- `CheckArrayData` returns `true` only when all its tests pass. -/
theorem CheckArrayData_accepted
    {reads : List Int}
    (accepts : ((CheckArrayData code isOpcode cur_offset).run reads).1 = true) :
    ArrayDataAccepted code isOpcode cur_offset := by
  simp only [CheckArrayData, CodeItem.read_bind_run] at accepts
  split_ifs at accepts with startOutOfRange misaligned unvisited
  · exact absurd accepts Bool.false_ne_true
  · exact absurd accepts Bool.false_ne_true
  · exact absurd accepts Bool.false_ne_true
  -- past the three early exits, the header reads and the end test remain
  simp only [CodeItem.read_bind_run] at accepts
  split_ifs at accepts with endOutOfRange
  · exact absurd accepts Bool.false_ne_true
  rw [not_or, Int.not_lt, Nat.not_le] at startOutOfRange
  simp only [ne_eq, Decidable.not_not] at misaligned
  simp only [Bool.not_eq_eq_eq_not, Bool.not_true, Bool.not_eq_false] at unvisited
  exact ⟨startOutOfRange.1, startOutOfRange.2, misaligned, unvisited,
    Nat.not_lt.mp endOutOfRange⟩

end CheckArrayDataSpec

/-- The checked size is at least the header and at most half of `2 ^ 32`
beyond it: the final `4 + ...` never wraps. -/
theorem CheckedTableSize_bounds (payload : ArrayDataPayload) :
    4 ≤ CheckedTableSize payload ∧ CheckedTableSize payload ≤ 2 ^ 31 + 3 := by
  unfold CheckedTableSize
  have roundedBound :=
    truncU32_lt ((truncU32 (payload.element_width * payload.element_count) : Int) + 1)
  generalize truncU32 ((truncU32 (payload.element_width * payload.element_count) : Int) + 1) =
    rounded at roundedBound ⊢
  have noWrap : (truncU32 (4 + (rounded : Int) / 2) : Int) = 4 + (rounded : Int) / 2 :=
    truncU32_of_lt (by omega) (by omega)
  omega

/-- When `element_width * element_count + 1` fits in 32 bits, the size that
`CheckArrayData` checks is the payload's true size. -/
theorem CheckedTableSize_of_no_wrap
    {payload : ArrayDataPayload}
    (noWrap : payload.element_width * payload.element_count + 1 < 2 ^ 32) :
    CheckedTableSize payload = TrueTableSize payload := by
  unfold CheckedTableSize TrueTableSize
  rw [← Int.natCast_mul]
  generalize payload.element_width * payload.element_count = product at noWrap ⊢
  have productValue := truncU32_emod (product : Int)
  have roundedValue := truncU32_emod ((truncU32 product : Int) + 1)
  have outerValue := truncU32_emod (4 + (truncU32 ((truncU32 product : Int) + 1) : Int) / 2)
  omega

section Accepted

variable {code : CodeItem} {isOpcode : Nat → Bool} {cur_offset : Nat}

/--
Under the bound that every code item of a dex file satisfies (the file's size
is a `uint32_t` count of bytes), an accepted payload starts inside the code
item and its checked extent ends inside it: none of the reductions that
`CheckArrayData` applies to offsets wraps.
-/
theorem ArrayDataAccepted.payload_in_range
    (accepted : ArrayDataAccepted code isOpcode cur_offset)
    (fitsInFile : code.insnsSize < 2 ^ 31)
    (instructionFits : cur_offset + 3 ≤ code.insnsSize) :
    0 ≤ PayloadOffset code cur_offset ∧
      PayloadOffset code cur_offset +
          CheckedTableSize (PayloadAt code (PayloadOffset code cur_offset)) ≤
        code.insnsSize := by
  obtain ⟨startNonneg, startInRange, -, -, endInRange⟩ := accepted
  have operandBounds := VRegB_31t_bounds code cur_offset
  have sizeBounds := CheckedTableSize_bounds (PayloadAt code (PayloadOffset code cur_offset))
  rw [toInt32_of_bounds (by omega) (by omega : (cur_offset : Int) < 2 ^ 31),
    toInt32_nonneg_iff] at startNonneg
  generalize CheckedTableSize (PayloadAt code (PayloadOffset code cur_offset)) = size
    at sizeBounds endInRange ⊢
  unfold PayloadOffset at *
  generalize VRegB_31t code cur_offset = operand at *
  have startValue := truncU32_emod ((cur_offset : Int) + operand + 2)
  have endValue := truncU32_emod ((cur_offset : Int) + operand + size)
  omega

/-- Part (a): an accepting run of `CheckArrayData` reads only code units of
the code item. -/
theorem CheckArrayData_reads_inside
    (fitsInFile : code.insnsSize < 2 ^ 31)
    (instructionFits : cur_offset + 3 ≤ code.insnsSize)
    (accepts : ((CheckArrayData code isOpcode cur_offset).run []).1 = true) :
    ∀ offset ∈ ((CheckArrayData code isOpcode cur_offset).run []).2,
      0 ≤ offset ∧ offset < code.insnsSize := by
  have accepted := CheckArrayData_accepted accepts
  have payloadRange := accepted.payload_in_range fitsInFile instructionFits
  have sizeBounds := CheckedTableSize_bounds (PayloadAt code (PayloadOffset code cur_offset))
  rw [CheckArrayData_run_of_accepted accepted]
  intro offset member
  simp only [List.nil_append, List.mem_cons, List.not_mem_nil, or_false] at member
  rcases member with rfl | rfl | rfl | rfl | rfl <;> omega

/-- When the payload's size does not wrap, an accepted payload lies entirely
inside the code item. -/
theorem ArrayDataAccepted.true_extent_of_no_wrap
    (accepted : ArrayDataAccepted code isOpcode cur_offset)
    (fitsInFile : code.insnsSize < 2 ^ 31)
    (instructionFits : cur_offset + 3 ≤ code.insnsSize)
    (noWrap :
      (PayloadAt code (PayloadOffset code cur_offset)).element_width *
          (PayloadAt code (PayloadOffset code cur_offset)).element_count + 1 < 2 ^ 32) :
    PayloadOffset code cur_offset +
        TrueTableSize (PayloadAt code (PayloadOffset code cur_offset)) ≤
      code.insnsSize := by
  rw [← CheckedTableSize_of_no_wrap noWrap]
  exact (accepted.payload_in_range fitsInFile instructionFits).2

/-- When the payload's size does not wrap and its count is a non-negative
`int32_t`, the runtime's copy reads only payload bytes inside the code item
and writes only inside an array whose component size is the element width. -/
theorem FillArrayData_in_bounds_of_no_wrap
    (accepted : ArrayDataAccepted code isOpcode cur_offset)
    (fitsInFile : code.insnsSize < 2 ^ 31)
    (instructionFits : cur_offset + 3 ≤ code.insnsSize)
    (noWrap :
      (PayloadAt code (PayloadOffset code cur_offset)).element_width *
          (PayloadAt code (PayloadOffset code cur_offset)).element_count + 1 < 2 ^ 32)
    (countFits : (PayloadAt code (PayloadOffset code cur_offset)).element_count < 2 ^ 31)
    (length : Nat) :
    (FillArrayData (some length) (PayloadAt code (PayloadOffset code cur_offset))).InBounds
      (2 * (code.insnsSize - (PayloadOffset code cur_offset).toNat - 4))
      (length * (PayloadAt code (PayloadOffset code cur_offset)).element_width) := by
  have extent := accepted.true_extent_of_no_wrap fitsInFile instructionFits noWrap
  have payloadStart := (accepted.payload_in_range fitsInFile instructionFits).1
  unfold TrueTableSize at extent
  generalize PayloadAt code (PayloadOffset code cur_offset) = payload
    at noWrap countFits extent ⊢
  generalize PayloadOffset code cur_offset = offset at extent payloadStart ⊢
  obtain ⟨ident, width, count⟩ := payload
  dsimp only at noWrap countFits extent
  simp only [FillArrayData]
  rw [toInt32_of_bounds (by omega) (by omega)]
  split_ifs with tooLong
  · trivial
  · rw [← Int.natCast_mul, Nat.mul_comm count width, truncU32_natCast_of_lt (by omega)]
    have withinArray : width * count ≤ length * width := by
      rw [Nat.mul_comm length width]
      exact Nat.mul_le_mul_left width (by omega)
    exact ⟨by omega, withinArray⟩

end Accepted

/-! ## What the compiler reads -/

/-- The log of the builder's loop: `data[i]` for every `i` of `indices`, in
order. -/
theorem BuildFillArrayDataLoop_log
    (code : CodeItem)
    (data : Int)
    (width : Nat)
    (type : ArraySetType)
    (indices : List Nat)
    (reads : List Int) :
    ((indices.mapM fun (i : Nat) => do
        let value ← code.readElement (data + (i * width : Nat)) width
        pure ({ index := i, value := value, type := type } : ArraySet)).run reads).2 =
      reads ++ indices.flatMap fun i => ElementUnits (data + (i * width : Nat)) width := by
  induction indices generalizing reads with
  | nil =>
      simp only [List.mapM_nil, List.flatMap_nil, List.append_nil]
      rfl
  | cons index rest inductionHypothesis =>
      simp only [List.mapM_cons, List.flatMap_cons, bind_assoc, pure_bind,
        CodeItem.readElement_bind_run]
      rw [StateT.run_bind]
      exact (inductionHypothesis _).trans (List.append_assoc _ _ _)

section Builder

variable {code : CodeItem} {dex_pc : Nat}

/-- A non-empty payload of a known width makes the builder read `data[i]` for
every `i < element_count`. -/
theorem BuildFillArrayData_log
    (countNonzero : (PayloadAt code (BuilderPayloadOffset code dex_pc)).element_count ≠ 0)
    (widthKnown : (PayloadAt code (BuilderPayloadOffset code dex_pc)).element_width ∈ [1, 2, 4, 8])
    (reads : List Int) :
    ((BuildFillArrayData code dex_pc).run reads).2 =
      reads ++ (List.range (PayloadAt code (BuilderPayloadOffset code dex_pc)).element_count).flatMap
        fun i => ElementUnits (2 * BuilderPayloadOffset code dex_pc + 8 +
          (i * (PayloadAt code (BuilderPayloadOffset code dex_pc)).element_width : Nat))
          (PayloadAt code (BuilderPayloadOffset code dex_pc)).element_width := by
  unfold BuildFillArrayData
  simp only [countNonzero, if_false]
  generalize (PayloadAt code (BuilderPayloadOffset code dex_pc)).element_width = width at widthKnown ⊢
  simp only [List.mem_cons, List.not_mem_nil, or_false] at widthKnown
  rcases widthKnown with rfl | rfl | rfl | rfl <;>
    simp only [StateT.run_map] <;>
    exact BuildFillArrayDataLoop_log _ _ _ _ _ _

/-- An empty payload emits only the null check and reads nothing. -/
theorem BuildFillArrayData_empty
    (countZero : (PayloadAt code (BuilderPayloadOffset code dex_pc)).element_count = 0)
    (reads : List Int) :
    (BuildFillArrayData code dex_pc).run reads = (some [], reads) := by
  unfold BuildFillArrayData
  simp only [countZero, if_true]
  rfl

/-- A non-empty payload of any other width reaches the `LOG(FATAL)` default,
before reading any element. -/
theorem BuildFillArrayData_fatal
    (countNonzero : (PayloadAt code (BuilderPayloadOffset code dex_pc)).element_count ≠ 0)
    (widthUnknown : (PayloadAt code (BuilderPayloadOffset code dex_pc)).element_width ∉ [1, 2, 4, 8])
    (reads : List Int) :
    (BuildFillArrayData code dex_pc).run reads = (none, reads) := by
  unfold BuildFillArrayData
  simp only [countNonzero, if_false]
  generalize (PayloadAt code (BuilderPayloadOffset code dex_pc)).element_width = width at widthUnknown ⊢
  simp only [List.mem_cons, List.not_mem_nil, or_false, not_or] at widthUnknown
  obtain ⟨notOne, notTwo, notFour, notEight⟩ := widthUnknown
  split
  · exact absurd rfl notOne
  · exact absurd rfl notTwo
  · exact absurd rfl notFour
  · exact absurd rfl notEight
  · rfl

end Builder

/-- When the payload's size does not wrap, the builder reads only code units
of the code item. -/
theorem BuildFillArrayData_reads_inside_of_no_wrap
    {code : CodeItem}
    {isOpcode : Nat → Bool}
    {cur_offset : Nat}
    (accepted : ArrayDataAccepted code isOpcode cur_offset)
    (fitsInFile : code.insnsSize < 2 ^ 31)
    (instructionFits : cur_offset + 3 ≤ code.insnsSize)
    (noWrap :
      (PayloadAt code (PayloadOffset code cur_offset)).element_width *
          (PayloadAt code (PayloadOffset code cur_offset)).element_count + 1 < 2 ^ 32) :
    ∀ offset ∈ ((BuildFillArrayData code cur_offset).run []).2,
      0 ≤ offset ∧ offset < code.insnsSize := by
  have extent := accepted.true_extent_of_no_wrap fitsInFile instructionFits noWrap
  have payloadStart := (accepted.payload_in_range fitsInFile instructionFits).1
  have sameOffset : BuilderPayloadOffset code cur_offset = PayloadOffset code cur_offset := by
    unfold BuilderPayloadOffset PayloadOffset
    unfold TrueTableSize PayloadOffset at extent
    unfold PayloadOffset at payloadStart
    rw [Int.add_comm]
    exact toInt32_of_bounds (by omega) (by omega)
  intro offset member
  by_cases countZero :
      (PayloadAt code (BuilderPayloadOffset code cur_offset)).element_count = 0
  · rw [BuildFillArrayData_empty countZero] at member
    exact absurd member List.not_mem_nil
  by_cases widthKnown :
      (PayloadAt code (BuilderPayloadOffset code cur_offset)).element_width ∈ [1, 2, 4, 8]
  · rw [BuildFillArrayData_log countZero widthKnown, List.nil_append, List.mem_flatMap] at member
    obtain ⟨index, indexMember, unitMember⟩ := member
    rw [ElementUnits, List.mem_map] at unitMember
    obtain ⟨byte, byteMember, rfl⟩ := unitMember
    rw [List.mem_range] at indexMember byteMember
    rw [sameOffset] at indexMember byteMember ⊢
    unfold TrueTableSize at extent
    generalize PayloadAt code (PayloadOffset code cur_offset) = payload
      at indexMember byteMember extent ⊢
    generalize PayloadOffset code cur_offset = start at payloadStart extent ⊢
    have beforeEnd : index * payload.element_width + payload.element_width ≤
        payload.element_width * payload.element_count := by
      have scaled := Nat.mul_le_mul_right payload.element_width indexMember
      rwa [Nat.succ_mul, Nat.mul_comm payload.element_count] at scaled
    omega
  · rw [BuildFillArrayData_fatal countZero widthKnown] at member
    exact absurd member List.not_mem_nil

/-! ## A payload whose size wraps -/

/-- The code units of a method whose payload has width 4 and count
`0xC0000001`: `fill-array-data v0, +4`, a `nop` that aligns the payload, the
payload header, and one four-byte element. -/
def wrappedCountUnits : List UInt16 :=
  [0x0026, 0x0004, 0x0000, 0x0000, 0x0300, 0x0004, 0x0001, 0xC000, 0x0000, 0x0000]

/-- The code item of `wrappedCountUnits`; the memory around it reads as zero. -/
def wrappedCountCode : CodeItem where
  unitAt offset := if offset < 0 then 0 else wrappedCountUnits.getD offset.toNat 0
  insnsSize := wrappedCountUnits.length

/--
The verifier's walk accepts the code item, and `CheckArrayData` accepts its
`fill-array-data`, because `4 * 0xC0000001` is `4` modulo `2 ^ 32`; the true
payload reaches far beyond the ten code units.  The runtime reads the count as
a negative `int32_t`, skips its length check and copies four bytes into a
zero-length `int[]`, and the compiler's loop reads `data[2]`, which starts at
code unit 12.
-/
theorem fillArrayData_wrapped_count_escapes :
    ComputeWidthsAndCountOps wrappedCountCode = some [0, 3, 4] ∧
      ((CheckArrayData wrappedCountCode (fun pc => decide (pc ∈ [0, 3, 4])) 0).run []).1 =
        true ∧
      PayloadOffset wrappedCountCode 0 = 4 ∧
      PayloadAt wrappedCountCode 4 = ⟨0x0300, 4, 0xC0000001⟩ ∧
      (wrappedCountCode.insnsSize : Int) <
        PayloadOffset wrappedCountCode 0 + TrueTableSize (PayloadAt wrappedCountCode 4) ∧
      FillArrayData (some 0) (PayloadAt wrappedCountCode 4) = .copied 4 ∧
      ¬(FillArrayData (some 0) (PayloadAt wrappedCountCode 4)).InBounds
        (2 * (wrappedCountCode.insnsSize - 4 - 4)) (0 * 4) ∧
      (12 : Int) ∈ ((BuildFillArrayData wrappedCountCode 0).run []).2 := by
  have builderOffset : BuilderPayloadOffset wrappedCountCode 0 = 4 := by decide
  refine ⟨by decide, rfl, by decide, by decide, by decide, by decide, by decide, ?_⟩
  rw [BuildFillArrayData_log (by rw [builderOffset]; decide) (by rw [builderOffset]; decide),
    List.nil_append, List.mem_flatMap]
  refine ⟨2, ?_, ?_⟩
  · rw [builderOffset, List.mem_range]
    decide
  · rw [builderOffset]
    decide

end ArtRuntime.Dex
