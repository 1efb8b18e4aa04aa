import ArtRuntime.FixedWidth

namespace ArtRuntime.Dex

/-!
# Dex instructions and the linear instruction walk

The code units of a code item, the instruction formats with their sizes
(`dex_instruction.h`, `dex_instruction-inl.h`, `dex_instruction_list.h`), the
variable-length payloads that share the `NOP` opcode
(`Instruction::SizeInCodeUnitsComplexOpcode`), and the walk that
`SafeDexInstructionIterator` performs for `MethodVerifier::ComputeWidthsAndCountOps`.

A code item is the memory around its `insns` array together with the array's
length: reads are addressed in code units relative to `insns[0]`, so that a
read outside `[0, insnsSize)` can be stated and is not silently clamped.
Every read goes through `CodeItem.read`, which records the address it reads.
-/

open FixedWidth

/-- `Instruction::Format`. -/
inductive Format where
  | k10x | k12x | k11n | k11x | k10t | k20t | k22x | k21t | k21s | k21h | k21c
  | k23x | k22b | k22t | k22s | k22c | k32x | k30t | k31t | k31i | k31c | k35c
  | k3rc | k45cc | k4rcc | k51l | kInvalidFormat
  deriving Repr, DecidableEq

/-- `Instruction::SizeInCodeUnits(Format)`. -/
def Format.SizeInCodeUnits : Format → Nat
  | .k10x | .k12x | .k11n | .k11x | .k10t => 1
  | .k20t | .k22x | .k21t | .k21s | .k21h | .k21c | .k23x | .k22b | .k22t
  | .k22s | .k22c => 2
  | .k32x | .k30t | .k31t | .k31i | .k31c | .k35c | .k3rc => 3
  | .k45cc | .k4rcc => 4
  | .k51l => 5
  | .kInvalidFormat => 0

/-- The format column of `DEX_INSTRUCTION_LIST`, indexed by opcode. -/
def kInstructionFormats : List Format :=
  [
    .k10x, .k12x, .k22x, .k32x, .k12x, .k22x, .k32x, .k12x,  -- 0x00
    .k22x, .k32x, .k11x, .k11x, .k11x, .k11x, .k10x, .k11x,  -- 0x08
    .k11x, .k11x, .k11n, .k21s, .k31i, .k21h, .k21s, .k31i,  -- 0x10
    .k51l, .k21h, .k21c, .k31c, .k21c, .k11x, .k11x, .k21c,  -- 0x18
    .k22c, .k12x, .k21c, .k22c, .k35c, .k3rc, .k31t, .k11x,  -- 0x20
    .k10t, .k20t, .k30t, .k31t, .k31t, .k23x, .k23x, .k23x,  -- 0x28
    .k23x, .k23x, .k22t, .k22t, .k22t, .k22t, .k22t, .k22t,  -- 0x30
    .k21t, .k21t, .k21t, .k21t, .k21t, .k21t, .k10x, .k10x,  -- 0x38
    .k10x, .k10x, .k10x, .k10x, .k23x, .k23x, .k23x, .k23x,  -- 0x40
    .k23x, .k23x, .k23x, .k23x, .k23x, .k23x, .k23x, .k23x,  -- 0x48
    .k23x, .k23x, .k22c, .k22c, .k22c, .k22c, .k22c, .k22c,  -- 0x50
    .k22c, .k22c, .k22c, .k22c, .k22c, .k22c, .k22c, .k22c,  -- 0x58
    .k21c, .k21c, .k21c, .k21c, .k21c, .k21c, .k21c, .k21c,  -- 0x60
    .k21c, .k21c, .k21c, .k21c, .k21c, .k21c, .k35c, .k35c,  -- 0x68
    .k35c, .k35c, .k35c, .k10x, .k3rc, .k3rc, .k3rc, .k3rc,  -- 0x70
    .k3rc, .k10x, .k10x, .k12x, .k12x, .k12x, .k12x, .k12x,  -- 0x78
    .k12x, .k12x, .k12x, .k12x, .k12x, .k12x, .k12x, .k12x,  -- 0x80
    .k12x, .k12x, .k12x, .k12x, .k12x, .k12x, .k12x, .k12x,  -- 0x88
    .k23x, .k23x, .k23x, .k23x, .k23x, .k23x, .k23x, .k23x,  -- 0x90
    .k23x, .k23x, .k23x, .k23x, .k23x, .k23x, .k23x, .k23x,  -- 0x98
    .k23x, .k23x, .k23x, .k23x, .k23x, .k23x, .k23x, .k23x,  -- 0xA0
    .k23x, .k23x, .k23x, .k23x, .k23x, .k23x, .k23x, .k23x,  -- 0xA8
    .k12x, .k12x, .k12x, .k12x, .k12x, .k12x, .k12x, .k12x,  -- 0xB0
    .k12x, .k12x, .k12x, .k12x, .k12x, .k12x, .k12x, .k12x,  -- 0xB8
    .k12x, .k12x, .k12x, .k12x, .k12x, .k12x, .k12x, .k12x,  -- 0xC0
    .k12x, .k12x, .k12x, .k12x, .k12x, .k12x, .k12x, .k12x,  -- 0xC8
    .k22s, .k22s, .k22s, .k22s, .k22s, .k22s, .k22s, .k22s,  -- 0xD0
    .k22b, .k22b, .k22b, .k22b, .k22b, .k22b, .k22b, .k22b,  -- 0xD8
    .k22b, .k22b, .k22b, .k10x, .k10x, .k10x, .k10x, .k10x,  -- 0xE0
    .k10x, .k10x, .k10x, .k10x, .k10x, .k10x, .k10x, .k10x,  -- 0xE8
    .k10x, .k10x, .k10x, .k10x, .k10x, .k10x, .k10x, .k10x,  -- 0xF0
    .k10x, .k10x, .k45cc, .k4rcc, .k35c, .k3rc, .k21c, .k21c  -- 0xF8
  ]

/-- `Instruction::FormatOf`. -/
def FormatOf (opcode : Nat) : Format :=
  kInstructionFormats.getD opcode .kInvalidFormat

/-- `InstructionDescriptor::size_in_code_units`: negative for `NOP`, whose
encoding also carries the variable-length payloads. -/
def DescriptorSizeInCodeUnits (opcode : Nat) : Int :=
  if opcode = 0 then -1 else (FormatOf opcode).SizeInCodeUnits

def kPackedSwitchSignature : Nat := 0x0100
def kSparseSwitchSignature : Nat := 0x0200
def kArrayDataSignature : Nat := 0x0300
def FILL_ARRAY_DATA : Nat := 0x26

/-- The memory around the `insns` array of one code item. -/
structure CodeItem where
  /-- The code unit at each offset from `insns[0]`; only offsets in
  `[0, insnsSize)` belong to the code item. -/
  unitAt : Int → UInt16
  /-- `CodeItemDataAccessor::InsnsSizeInCodeUnits`. -/
  insnsSize : Nat

namespace CodeItem

/-- Read one code unit and record its offset. -/
def read (code : CodeItem) (offset : Int) : StateM (List Int) Nat :=
  fun reads => ((code.unitAt offset).toNat, reads ++ [offset])

/-- The offsets of a read log that lie outside the code item. -/
def OutsideReads (code : CodeItem) (reads : List Int) : List Int :=
  reads.filter fun offset => offset < 0 ∨ code.insnsSize ≤ offset

/-- The opcode byte of the instruction at `pc`. -/
def Opcode (code : CodeItem) (pc : Int) : Nat :=
  (code.unitAt pc).toNat % 256

@[simp] theorem read_run
    (code : CodeItem)
    (offset : Int)
    (reads : List Int) :
    (code.read offset).run reads =
      ((code.unitAt offset).toNat, reads ++ [offset]) := rfl

/-- A read followed by the rest of a computation: the rest runs on the value
read, with the offset appended to the log. -/
@[simp] theorem read_bind_run
    {α : Type}
    (code : CodeItem)
    (offset : Int)
    (next : Nat → StateM (List Int) α)
    (reads : List Int) :
    (code.read offset >>= next).run reads =
      (next (code.unitAt offset).toNat).run (reads ++ [offset]) := rfl

end CodeItem

/--
`Instruction::SizeInCodeUnitsComplexOpcode` on the instruction at `pc`.

The payload sizes are computed in the source's integer types: for
`array-data`, `element_size * length` is an `int` times a `uint32_t`, hence
reduced modulo `2 ^ 32`, and so is the `+ 1`.  `none` is the `LOG(FATAL)`
branch.
-/
def SizeInCodeUnitsComplexOpcode (code : CodeItem) (pc : Int) : Option Nat :=
  let insns0 := (code.unitAt pc).toNat
  if insns0 = kPackedSwitchSignature then
    some (4 + (code.unitAt (pc + 1)).toNat * 2)
  else if insns0 = kSparseSwitchSignature then
    some (2 + (code.unitAt (pc + 1)).toNat * 4)
  else if insns0 = kArrayDataSignature then
    let element_size := (code.unitAt (pc + 1)).toNat
    let length := word32 (code.unitAt (pc + 2)).toNat (code.unitAt (pc + 3)).toNat
    -- The plus 1 is to round up for odd size and width.
    some (4 + truncU32 (truncU32 (element_size * length) + 1) / 2)
  else if insns0 % 256 = 0 then
    some 1
  else
    none

/-- `Instruction::CodeUnitsRequiredForSizeOfComplexOpcode`. -/
def CodeUnitsRequiredForSizeOfComplexOpcode (code : CodeItem) (pc : Int) : Option Nat :=
  let insns0 := (code.unitAt pc).toNat
  if insns0 = kPackedSwitchSignature ∨ insns0 = kSparseSwitchSignature then some 2
  else if insns0 = kArrayDataSignature then some 4
  else if insns0 % 256 = 0 then some 1
  else none

/-- `Instruction::SizeInCodeUnits`. -/
def SizeInCodeUnits (code : CodeItem) (pc : Int) : Option Nat :=
  let result := DescriptorSizeInCodeUnits (code.Opcode pc)
  if result < 0 then SizeInCodeUnitsComplexOpcode code pc else some result.toNat

/-- `Instruction::CodeUnitsRequiredForSizeComputation`. -/
def CodeUnitsRequiredForSizeComputation (code : CodeItem) (pc : Int) : Option Nat :=
  if DescriptorSizeInCodeUnits (code.Opcode pc) < 0 then
    CodeUnitsRequiredForSizeOfComplexOpcode code pc
  else
    some 1

/--
`SafeDexInstructionIterator::operator++` from dex pc `pc`: the next dex pc, or
`none` for the error state.  The size is only computed once the code units it
needs are available, and the step is refused if the instruction would run past
the end of the code item.
-/
def SafeNext (code : CodeItem) (pc : Nat) : Option Nat :=
  let available := code.insnsSize - pc
  match CodeUnitsRequiredForSizeComputation code pc with
  | none => none
  | some size_code_units =>
      if size_code_units > available then
        none
      else
        match SizeInCodeUnits code pc with
        | none => none
        | some instruction_code_units =>
            if instruction_code_units > available then none
            else some (pc + instruction_code_units)

/--
The loop of `MethodVerifier::ComputeWidthsAndCountOps`, from dex pc `pc`:
the dex pcs it marks with `SetIsOpcode`, or `none` when it stops in the error
state or does not end exactly at `insnsSize` ("code did not end where
expected").  The fuel bounds the number of instructions; every instruction is
at least one code unit long, so `insnsSize` units of fuel are enough.
-/
def MarkOpcodes (code : CodeItem) : Nat → Nat → Option (List Nat)
  | 0, _ => none
  | fuel + 1, pc =>
      if pc < code.insnsSize then
        match SafeNext code pc with
        | none => none
        | some next => (MarkOpcodes code fuel next).map (pc :: ·)
      else if pc = code.insnsSize then
        some []
      else
        none

/-- `MethodVerifier::ComputeWidthsAndCountOps`: the opcode flags of the code
item, or `none` when the verifier fails the method. -/
def ComputeWidthsAndCountOps (code : CodeItem) : Option (List Nat) :=
  if code.insnsSize = 0 then
    -- "code item has no opcode"
    none
  else
    MarkOpcodes code (code.insnsSize + 1) 0

end ArtRuntime.Dex
