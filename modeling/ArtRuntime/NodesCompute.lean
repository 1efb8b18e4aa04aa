import ArtRuntime.Bits.TwosComplement

namespace ArtRuntime.Optimizing

open ArtRuntime.TwosComplement

/-!
# Constant folding: the `Compute` functions of `nodes.h`

Each arithmetic, logical, shift and comparison instruction of the optimizing
compiler evaluates constant inputs with a C++ template over `int32_t` or
`int64_t`.  The templates are modelled here on `Int` at a width `w`, with the
two's complement operations of `TwosComplement`: `+`, `-`, `*`, unary `-` and
`<<` wrap, `/` and `%` are C++'s truncating division, `>>` on a signed value
is arithmetic, and the casts to the unsigned type are `asUnsigned`.

The Java semantics is `BitVec w` with the JLS operations: wrapping arithmetic,
`sdiv`/`srem` (rounding towards zero, `MIN_VALUE / -1 == MIN_VALUE`), shifts
by the distance's low five or six bits, and the signed and unsigned orders.
Every theorem of the module reads a constant as `BitVec.toInt` and states that
the C++ evaluation is the Java result, read the same way.
-/

/-- `DataType::Type`, restricted to the integral types that `HIntConstant` and
`HLongConstant` hold. -/
inductive IntegralType where
  | kInt32
  | kInt64
  deriving DecidableEq, Repr

def kMaxIntShiftDistance : Nat := 0x1f

def kMaxLongShiftDistance : Nat := 0x3f

namespace IntegralType

/-- `DataType::Size(type) * kBitsPerByte`. -/
def width : IntegralType → Nat
  | .kInt32 => 32
  | .kInt64 => 64

/-- The shift distance mask `Evaluate` passes for the type. -/
def maxShiftDistance : IntegralType → Nat
  | .kInt32 => kMaxIntShiftDistance
  | .kInt64 => kMaxLongShiftDistance

theorem width_pos (type : IntegralType) : 0 < type.width := by
  cases type <;> decide

end IntegralType

section Compute

variable (w : Nat)

def HAdd.Compute (x y : Int) : Int :=
  wrap w (x + y)

def HSub.Compute (x y : Int) : Int :=
  wrap w (x - y)

def HMul.Compute (x y : Int) : Int :=
  wrap w (x * y)

def HAnd.Compute (x y : Int) : Int :=
  bitwise w (· &&& ·) x y

def HOr.Compute (x y : Int) : Int :=
  bitwise w (· ||| ·) x y

def HXor.Compute (x y : Int) : Int :=
  bitwise w (· ^^^ ·) x y

def HNeg.Compute (x : Int) : Int :=
  wrap w (-x)

def HNot.Compute (x : Int) : Int :=
  complement w x

def HCompare.Compute (x y : Int) : Int :=
  if x > y then 1 else if x < y then -1 else 0

def HEqual.Compute (x y : Int) : Bool :=
  x = y

def HNotEqual.Compute (x y : Int) : Bool :=
  x ≠ y

def HLessThan.Compute (x y : Int) : Bool :=
  x < y

def HLessThanOrEqual.Compute (x y : Int) : Bool :=
  x ≤ y

def HGreaterThan.Compute (x y : Int) : Bool :=
  x > y

def HGreaterThanOrEqual.Compute (x y : Int) : Bool :=
  x ≥ y

/-- `MakeUnsigned(x) < MakeUnsigned(y)`. -/
def HBelow.Compute (x y : Int) : Bool :=
  asUnsigned w x < asUnsigned w y

def HBelowOrEqual.Compute (x y : Int) : Bool :=
  asUnsigned w x ≤ asUnsigned w y

def HAbove.Compute (x y : Int) : Bool :=
  asUnsigned w x > asUnsigned w y

def HAboveOrEqual.Compute (x y : Int) : Bool :=
  asUnsigned w x ≥ asUnsigned w y

/-- `distance & max_shift_distance` on the `int32_t` distance: its low bits,
as the mask is a non-negative `int32_t`. -/
def maskedDistance (distance : Int) (max_shift_distance : Nat) : Nat :=
  asUnsigned 32 distance &&& max_shift_distance

def HShl.Compute (value distance : Int) (max_shift_distance : Nat) : Int :=
  wrap w (value * 2 ^ maskedDistance distance max_shift_distance)

def HShr.Compute (value distance : Int) (max_shift_distance : Nat) : Int :=
  value >>> maskedDistance distance max_shift_distance

def HUShr.Compute (value distance : Int) (max_shift_distance : Nat) : Int :=
  wrap w (asUnsigned w value >>> maskedDistance distance max_shift_distance)

/-- A zero distance returns the value; otherwise the unsigned shift right and
the signed shift left by the complementary distance are `|`-ed. -/
def HRor.Compute (value distance : Int) (max_shift_value : Nat) : Int :=
  let ux := asUnsigned w value
  let shift := maskedDistance distance max_shift_value
  if shift = 0 then
    wrap w ux
  else
    bitwise w (· ||| ·) (wrap w (ux >>> shift)) (wrap w (value * 2 ^ (w - shift)))

/-- `HRor::Compute(value, -distance, max_shift_value)`: the negation is on
`int32_t`. -/
def HRol.Compute (value distance : Int) (max_shift_value : Nat) : Int :=
  HRor.Compute w value (wrap 32 (-distance)) max_shift_value

end Compute

section Java

/-!
## The Java operations without a `BitVec` primitive
-/

variable {w : Nat}

/-- `Integer.compare`, `Long.compare` and the dex `cmp-long`. -/
def javaCompare (x y : BitVec w) : Int :=
  if x.slt y then -1 else if x = y then 0 else 1

end Java

section Arithmetic

variable {w : Nat} (x y : BitVec w)

theorem HAdd.Compute_eq : HAdd.Compute w x.toInt y.toInt = (x + y).toInt :=
  (BitVec.toInt_add x y).symm

theorem HSub.Compute_eq : HSub.Compute w x.toInt y.toInt = (x - y).toInt :=
  BitVec.toInt_sub.symm

theorem HMul.Compute_eq : HMul.Compute w x.toInt y.toInt = (x * y).toInt :=
  (BitVec.toInt_mul x y).symm

theorem HNeg.Compute_eq : HNeg.Compute w x.toInt = (-x).toInt :=
  BitVec.toInt_neg.symm

theorem HAnd.Compute_eq : HAnd.Compute w x.toInt y.toInt = (x &&& y).toInt := by
  rw [HAnd.Compute, bitwise_toInt, BitVec.toInt_and]
  rfl

theorem HOr.Compute_eq : HOr.Compute w x.toInt y.toInt = (x ||| y).toInt := by
  rw [HOr.Compute, bitwise_toInt, BitVec.toInt_or]
  rfl

theorem HXor.Compute_eq : HXor.Compute w x.toInt y.toInt = (x ^^^ y).toInt := by
  rw [HXor.Compute, bitwise_toInt, BitVec.toInt_xor]
  rfl

theorem HNot.Compute_eq : HNot.Compute w x.toInt = (~~~x).toInt :=
  complement_toInt x

end Arithmetic

section Comparisons

variable {w : Nat} (x y : BitVec w)

theorem HCompare.Compute_eq : HCompare.Compute x.toInt y.toInt = javaCompare x y := by
  rw [HCompare.Compute, javaCompare]
  by_cases below : x.toInt < y.toInt
  · rw [if_neg (by omega), if_pos below, if_pos (BitVec.slt_iff_toInt_lt.mpr below)]
  · rw [if_neg (mt BitVec.slt_iff_toInt_lt.mp below)]
    by_cases same : x = y
    · rw [if_pos same, same]
      simp
    · have differ : x.toInt ≠ y.toInt := mt BitVec.toInt_inj.mp same
      rw [if_pos (by omega), if_neg same]

theorem HEqual.Compute_eq : HEqual.Compute x.toInt y.toInt = (x == y) := by
  rw [HEqual.Compute, Bool.eq_iff_iff, decide_eq_true_iff, beq_iff_eq, BitVec.toInt_inj]

theorem HNotEqual.Compute_eq : HNotEqual.Compute x.toInt y.toInt = (x != y) := by
  rw [HNotEqual.Compute, Bool.eq_iff_iff, decide_eq_true_iff, bne_iff_ne, Ne, Ne,
    BitVec.toInt_inj]

theorem HLessThan.Compute_eq : HLessThan.Compute x.toInt y.toInt = x.slt y := by
  rw [HLessThan.Compute, Bool.eq_iff_iff, decide_eq_true_iff, BitVec.slt_iff_toInt_lt]

theorem HLessThanOrEqual.Compute_eq : HLessThanOrEqual.Compute x.toInt y.toInt = x.sle y := by
  rw [HLessThanOrEqual.Compute, Bool.eq_iff_iff, decide_eq_true_iff, BitVec.sle_iff_toInt_le]

theorem HGreaterThan.Compute_eq : HGreaterThan.Compute x.toInt y.toInt = y.slt x := by
  rw [HGreaterThan.Compute, Bool.eq_iff_iff, decide_eq_true_iff, BitVec.slt_iff_toInt_lt]

theorem HGreaterThanOrEqual.Compute_eq : HGreaterThanOrEqual.Compute x.toInt y.toInt = y.sle x := by
  rw [HGreaterThanOrEqual.Compute, Bool.eq_iff_iff, decide_eq_true_iff, BitVec.sle_iff_toInt_le]

theorem HBelow.Compute_eq : HBelow.Compute w x.toInt y.toInt = x.ult y := by
  rw [HBelow.Compute, asUnsigned_toInt, asUnsigned_toInt, Bool.eq_iff_iff, decide_eq_true_iff,
    BitVec.ult_iff_toNat_lt]

theorem HBelowOrEqual.Compute_eq : HBelowOrEqual.Compute w x.toInt y.toInt = x.ule y := by
  rw [HBelowOrEqual.Compute, asUnsigned_toInt, asUnsigned_toInt, Bool.eq_iff_iff,
    decide_eq_true_iff, BitVec.ule_iff_toNat_le]

theorem HAbove.Compute_eq : HAbove.Compute w x.toInt y.toInt = y.ult x := by
  rw [HAbove.Compute, asUnsigned_toInt, asUnsigned_toInt, Bool.eq_iff_iff, decide_eq_true_iff,
    BitVec.ult_iff_toNat_lt]

theorem HAboveOrEqual.Compute_eq : HAboveOrEqual.Compute w x.toInt y.toInt = y.ule x := by
  rw [HAboveOrEqual.Compute, asUnsigned_toInt, asUnsigned_toInt, Bool.eq_iff_iff,
    decide_eq_true_iff, BitVec.ule_iff_toNat_le]

end Comparisons

section Shifts

/-- The masked distance is the distance's residue modulo the width: the JLS
takes its low five bits for an `int`, six for a `long`. -/
theorem maskedDistance_eq (type : IntegralType) (distance : BitVec 32) :
    maskedDistance distance.toInt type.maxShiftDistance = distance.toNat % type.width := by
  rw [maskedDistance, asUnsigned_toInt]
  cases type
  case kInt32 => exact Nat.and_two_pow_sub_one_eq_mod distance.toNat 5
  case kInt64 => exact Nat.and_two_pow_sub_one_eq_mod distance.toNat 6

/-- Negating the `int32_t` distance turns it into the complementary distance
modulo either width, as both divide `2 ^ 32`. -/
theorem neg_distance_mod (type : IntegralType) (distance : BitVec 32) :
    (-distance).toNat % type.width = (type.width - distance.toNat % type.width) % type.width := by
  have bounded := distance.isLt
  rw [BitVec.toNat_neg]
  cases type
  case kInt32 =>
    simp only [IntegralType.width]
    omega
  case kInt64 =>
    simp only [IntegralType.width]
    omega

variable (type : IntegralType) (x : BitVec type.width) (distance : BitVec 32)

theorem HShl.Compute_eq :
    HShl.Compute type.width x.toInt distance.toInt type.maxShiftDistance =
      (x <<< (distance.toNat % type.width)).toInt := by
  rw [HShl.Compute, maskedDistance_eq, wrap_mul_two_pow]

theorem HShr.Compute_eq :
    HShr.Compute x.toInt distance.toInt type.maxShiftDistance =
      (x.sshiftRight (distance.toNat % type.width)).toInt := by
  rw [HShr.Compute, maskedDistance_eq, BitVec.toInt_sshiftRight]

theorem HUShr.Compute_eq :
    HUShr.Compute type.width x.toInt distance.toInt type.maxShiftDistance =
      (x >>> (distance.toNat % type.width)).toInt := by
  rw [HUShr.Compute, maskedDistance_eq, asUnsigned_toInt, ← BitVec.toNat_ushiftRight, wrap_toNat]

/-- Both branches of `HRor::Compute` are the rotation: at distance zero the
value itself, and otherwise the two shifted halves, whose `|` the wrap leaves
alone. -/
theorem HRor.Compute_eq :
    HRor.Compute type.width x.toInt distance.toInt type.maxShiftDistance =
      (x.rotateRight (distance.toNat % type.width)).toInt := by
  rw [HRor.Compute, maskedDistance_eq, asUnsigned_toInt]
  have below : distance.toNat % type.width < type.width := Nat.mod_lt _ type.width_pos
  generalize distance.toNat % type.width = shift at below ⊢
  split
  case isTrue zero =>
    subst zero
    rw [wrap_toNat]
    simp [BitVec.rotateRight_def]
  case isFalse =>
    have shiftedBound : x.toNat >>> shift < 2 ^ type.width :=
      Nat.lt_of_le_of_lt (Nat.shiftRight_le _ _) x.isLt
    rw [bitwise, asUnsigned_wrap, asUnsigned_wrap, asUnsigned_natCast_of_lt shiftedBound,
      asUnsigned_mul_two_pow, BitVec.toInt_rotateRight, Nat.mod_eq_of_lt below,
      BitVec.toNat_ushiftRight]
    rfl

theorem HRol.Compute_eq :
    HRol.Compute type.width x.toInt distance.toInt type.maxShiftDistance =
      (x.rotateLeft (distance.toNat % type.width)).toInt := by
  have negated : wrap 32 (-distance.toInt) = (-distance).toInt := BitVec.toInt_neg.symm
  rw [HRol.Compute, negated, HRor.Compute_eq, neg_distance_mod,
    rotateRight_sub_eq_rotateLeft x (Nat.mod_lt _ type.width_pos)]

end Shifts

end ArtRuntime.Optimizing
