import ArtRuntime.FillArrayData
import ArtRuntime.Search.BinarySearch

namespace ArtRuntime.Dex

/-!
# `packed-switch` and `sparse-switch` from the verifier to the interpreter

`MethodVerifier::CheckSwitchTargets` checks a switch payload once, and the
interpreter's `DoPackedSwitch` and `DoSparseSwitch` then read it on every
execution without checking it again.  The interpreter relies on two of the
verifier's tests beyond the bounds of the table: for a packed switch, that
`first_key + size - 1` does not pass `INT32_MAX`, which keeps the wrapped
`test_val - first_key` out of `[0, size)` whenever the true difference is;
for a sparse switch, that the keys are strictly ascending, which its binary
search needs.

The model keeps the source's integer types: `uint32_t` indices are reduced
with `truncU32`, `int32_t` values with `toInt32`, and signed subtraction is
taken to wrap, as `FixedWidth` does throughout.  The verifier's instruction
flags are the function `isOpcode`, as `ComputeWidthsAndCountOps` left them,
and the branch targets it marks with `SetBranchTarget` are its state.
-/

open FixedWidth

def PACKED_SWITCH : Nat := 0x2b
namespace CodeItem

/-- The `int32_t` stored little-endian in the code units at `offset` and
`offset + 1`, as the interpreter's `reinterpret_cast<const int32_t*>` reads
`keys` and `targets`. -/
def int32At (code : CodeItem) (offset : Int) : Int :=
  toInt32 ((code.unitAt offset).toNat ||| (code.unitAt (offset + 1)).toNat <<< 16)

theorem int32At_bounds (code : CodeItem) (offset : Int) :
    -2 ^ 31 ≤ code.int32At offset ∧ code.int32At offset < 2 ^ 31 :=
  toInt32_bounds _

end CodeItem

/-- The operand of a `31t` instruction is the word after its opcode. -/
theorem VRegB_31t_eq_int32At (code : CodeItem) (pc : Int) :
    VRegB_31t code pc = code.int32At (pc + 1) := by
  rw [VRegB_31t, CodeItem.int32At, show pc + 1 + 1 = pc + 2 by omega]

/-! ## The interpreter -/

/-- `switch_data[1]`: the number of cases of the payload named by the
switch at `pc`. -/
def SwitchSize (code : CodeItem) (pc : Nat) : Nat :=
  (code.unitAt (PayloadOffset code pc + 1)).toNat

/-- `keys[j]` of the payload; a packed switch stores only `keys[0]`, its
`first_key`. -/
def SwitchKey (code : CodeItem) (pc : Nat) (j : Nat) : Int :=
  code.int32At (PayloadOffset code pc + 2 + 2 * j)

/-- The code unit, from the payload's start, at which its branch offsets
begin: `targets_offset` of the verifier. -/
def TargetsOffset (packed : Bool) (count : Nat) : Int :=
  if packed then 4 else 2 + 2 * count

/-- The `i`-th branch offset of the payload: `targets[i]` of a packed switch,
`entries[i]` of a sparse one. -/
def SwitchTarget (code : CodeItem) (pc : Nat) (packed : Bool) (i : Nat) : Int :=
  code.int32At (PayloadOffset code pc + TargetsOffset packed (SwitchSize code pc) + 2 * i)

/-- The verifier's `is_packed_switch` for the switch at `pc`. -/
def IsPackedSwitch (code : CodeItem) (pc : Nat) : Bool :=
  code.Opcode pc == PACKED_SWITCH

section Readings

variable (code : CodeItem) (pc : Nat)

end Readings


/-- The verifier's test on one branch target, passed: `abs_offset` is an
opcode of the code item. -/
def TargetAccepted (code : CodeItem) (isOpcode : Nat → Bool) (abs_offset : Int) : Prop :=
  0 ≤ abs_offset ∧ abs_offset < toInt32 code.insnsSize ∧ isOpcode abs_offset.toNat = true

/-- The tests of `CheckSwitchTargets`, all passed. -/
structure SwitchAccepted (code : CodeItem) (isOpcode : Nat → Bool) (cur_offset : Nat) :
    Prop where
  startNonneg : 0 ≤ toInt32 (toInt32 cur_offset + VRegB_31t code cur_offset)
  startInRange : truncU32 (PayloadOffset code cur_offset + 2) ≤ code.insnsSize
  aligned : PayloadOffset code cur_offset % 2 = 0
  visited : isOpcode (truncU32 (PayloadOffset code cur_offset)) = true
  signature : (code.unitAt (PayloadOffset code cur_offset)).toNat =
    if IsPackedSwitch code cur_offset then kPackedSwitchSignature else kSparseSwitchSignature
  endInRange :
    truncU32 (PayloadOffset code cur_offset +
        (TargetsOffset (IsPackedSwitch code cur_offset) (SwitchSize code cur_offset) +
          2 * SwitchSize code cur_offset)) ≤
      code.insnsSize
  firstKeyBounded : IsPackedSwitch code cur_offset = true → 1 < SwitchSize code cur_offset →
    SwitchKey code cur_offset 0 ≤ 2 ^ 31 - 1 - (SwitchSize code cur_offset - 1)
  keysAscending : IsPackedSwitch code cur_offset = false →
    ∀ t, t + 1 < SwitchSize code cur_offset →
      SwitchKey code cur_offset t < SwitchKey code cur_offset (t + 1)
  targetsAccepted : ∀ i < SwitchSize code cur_offset,
    TargetAccepted code isOpcode
      (toInt32 (cur_offset + SwitchTarget code cur_offset (IsPackedSwitch code cur_offset) i))

section Loops

variable {code : CodeItem} {isOpcode : Nat → Bool} {cur_offset : Nat} {switch_insns : Int}

end Loops

section Accepted

variable {code : CodeItem} {isOpcode : Nat → Bool} {cur_offset : Nat}

end Accepted

/-! ## Dispatch on an accepted payload -/

section Dispatch

variable {code : CodeItem} {isOpcode : Nat → Bool} {cur_offset : Nat}

/-- Part (c): every branch offset of an accepted payload leads from the
switch to an opcode of the code item.  The verifier's test is on the
`int32_t` reading of the `uint32_t` sum; it is the true sum, because a
`uint32_t` count of code units that reads as negative leaves no target to
accept. -/
theorem SwitchAccepted.target_inside
    (accepted : SwitchAccepted code isOpcode cur_offset)
    (sizeIsU32 : code.insnsSize < 2 ^ 32) (atInstruction : cur_offset < code.insnsSize)
    {i : Nat} (inside : i < SwitchSize code cur_offset) :
    0 ≤ cur_offset + SwitchTarget code cur_offset (IsPackedSwitch code cur_offset) i ∧
      cur_offset + SwitchTarget code cur_offset (IsPackedSwitch code cur_offset) i <
        code.insnsSize ∧
      isOpcode (cur_offset + SwitchTarget code cur_offset (IsPackedSwitch code cur_offset) i).toNat =
        true := by
  obtain ⟨nonneg, below, opcode⟩ := accepted.targetsAccepted i inside
  have offsetBounds : -2 ^ 31 ≤ SwitchTarget code cur_offset (IsPackedSwitch code cur_offset) i ∧
      SwitchTarget code cur_offset (IsPackedSwitch code cur_offset) i < 2 ^ 31 :=
    CodeItem.int32At_bounds _ _
  generalize SwitchTarget code cur_offset (IsPackedSwitch code cur_offset) i = offset
    at nonneg below opcode offsetBounds ⊢
  have sumCongruent := toInt32_emod (cur_offset + offset)
  have sizeCongruent := toInt32_emod code.insnsSize
  have sizeBounds := toInt32_bounds code.insnsSize
  have exact : toInt32 (cur_offset + offset) = cur_offset + offset := by omega
  rw [exact] at nonneg below opcode
  exact ⟨nonneg, by omega, opcode⟩

end Dispatch

end ArtRuntime.Dex
