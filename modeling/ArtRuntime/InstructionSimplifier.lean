import ArtRuntime.NodesCompute

namespace ArtRuntime.Optimizing

open ArtRuntime.TwosComplement

/-!
# Rotate recognition in the instruction simplifier

`InstructionSimplifierVisitor::TryReplaceWithRotate` replaces an `Add`, `Xor`
or `Or` of an unsigned shift right and a shift left of the same value by one
`Ror`, when the two distances add up to a multiple of the register size: both
constant, or one the `Neg` of the other, or one `#bits - ` the other.

Instructions are modelled as trees over the method's parameters and constants,
evaluated with the `Compute` functions of `NodesCompute`, so with Java's
semantics.  The main results:

* `TryReplaceWithRotate_sound`: the `Ror` has the value of the instruction it
  replaces for every input, when the operation is `Or` or the rotation
  distance is not zero modulo the width;
* `TryReplaceWithRotate_zero_distance`: at a zero distance an `Add` doubles the
  value that its `Ror` returns.  Only the `Neg` pattern checks for this case,
  with a constant; the `#bits - d` pattern rewrites `Add` and `Xor` for a `d`
  that is only known at run time.
-/

/-- An instruction of the graph, as the tree of its inputs. -/
inductive HInstruction where
  | parameterValue (type : IntegralType) (index : Nat)
  | constant (type : IntegralType) (value : BitVec type.width)
  | add (type : IntegralType) (left right : HInstruction)
  | sub (type : IntegralType) (left right : HInstruction)
  | xor (type : IntegralType) (left right : HInstruction)
  | or (type : IntegralType) (left right : HInstruction)
  | neg (type : IntegralType) (input : HInstruction)
  | shl (type : IntegralType) (value distance : HInstruction)
  | ushr (type : IntegralType) (value distance : HInstruction)
  | ror (type : IntegralType) (value distance : HInstruction)
  deriving DecidableEq, Repr

/-- The values of the method's parameters. -/
abbrev Environment := (type : IntegralType) → Nat → BitVec type.width

/-- The value an instruction computes, as `HInstruction::Compute` would fold it. -/
def evaluate (env : Environment) : HInstruction → Int
  | .parameterValue type index => (env type index).toInt
  | .constant _ value => value.toInt
  | .add type left right => HAdd.Compute type.width (evaluate env left) (evaluate env right)
  | .sub type left right => HSub.Compute type.width (evaluate env left) (evaluate env right)
  | .xor type left right => HXor.Compute type.width (evaluate env left) (evaluate env right)
  | .or type left right => HOr.Compute type.width (evaluate env left) (evaluate env right)
  | .neg type input => HNeg.Compute type.width (evaluate env input)
  | .shl type value distance =>
    HShl.Compute type.width (evaluate env value) (evaluate env distance) type.maxShiftDistance
  | .ushr type value distance =>
    HUShr.Compute type.width (evaluate env value) (evaluate env distance) type.maxShiftDistance
  | .ror type value distance =>
    HRor.Compute type.width (evaluate env value) (evaluate env distance) type.maxShiftDistance

namespace HInstruction

def IsConstant : HInstruction → Bool
  | .constant .. => true
  | _ => false

def IsSub : HInstruction → Bool
  | .sub .. => true
  | _ => false

def IsNeg : HInstruction → Bool
  | .neg .. => true
  | _ => false

def IsOr : HInstruction → Bool
  | .or .. => true
  | _ => false

/-- `GetType`: the type of the value the instruction computes. -/
def GetType : HInstruction → IntegralType
  | .parameterValue type _ | .constant type _ | .add type .. | .sub type .. | .xor type ..
  | .or type .. | .neg type _ | .shl type .. | .ushr type .. | .ror type .. => type

/-- `Int64FromConstant`: the constant sign-extended to 64 bits. -/
def Int64FromConstant : HInstruction → Int
  | .constant _ value => value.toInt
  | _ => 0

end HInstruction

/-- `sub` is `#bits - other` for a constant `#bits` that is a multiple of the
register size. -/
def IsSubRegBitsMinusOther (sub : HInstruction) (reg_bits : Nat) (other : HInstruction) : Bool :=
  match sub with
  | .sub _ left right =>
    right == other && left.IsConstant &&
      (asUnsigned 64 left.Int64FromConstant &&& (reg_bits - 1)) == 0
  | _ => false

/-- Both distances constant: `(ldist + rdist) & (reg_bits - 1)` on `size_t`. -/
def TryReplaceWithRotateConstantPattern (reg_bits : Nat) (ushrDistance shlDistance : HInstruction) :
    Bool :=
  let rdist := asUnsigned 64 ushrDistance.Int64FromConstant
  let ldist := asUnsigned 64 shlDistance.Int64FromConstant
  ((ldist + rdist) % 2 ^ 64 &&& (reg_bits - 1)) == 0

/-- One distance is the `Neg` of the other; for `Add` and `Xor` the negated
distance must be a non-zero constant. -/
def TryReplaceWithRotateRegisterNegPattern (isOr : Bool) (ushrDistance shlDistance : HInstruction) :
    Bool :=
  let neg_is_left := shlDistance.IsNeg
  match (if neg_is_left then shlDistance else ushrDistance) with
  | .neg _ value =>
    -- The shift distance being negated is the distance being shifted the other way.
    if value != (if neg_is_left then ushrDistance else shlDistance) then false
    else if !isOr then
      match value with
      | .constant _ c => c.toInt != 0
      | _ => false
    else true
  | _ => false

/-- One distance is `#bits - ` the other. -/
def TryReplaceWithRotateRegisterSubPattern (reg_bits : Nat) (ushrDistance shlDistance : HInstruction) :
    Bool :=
  (shlDistance.IsSub && IsSubRegBitsMinusOther shlDistance reg_bits ushrDistance) ||
    (ushrDistance.IsSub && IsSubRegBitsMinusOther ushrDistance reg_bits shlDistance)

/-- The choice of pattern `TryReplaceWithRotate` makes from the two distances. -/
def rotatePatternMatches (isOr : Bool) (reg_bits : Nat) (ushrDistance shlDistance : HInstruction) :
    Bool :=
  if ushrDistance.IsConstant && shlDistance.IsConstant then
    TryReplaceWithRotateConstantPattern reg_bits ushrDistance shlDistance
  else if ushrDistance.IsSub || shlDistance.IsSub then
    TryReplaceWithRotateRegisterSubPattern reg_bits ushrDistance shlDistance
  else if ushrDistance.IsNeg || shlDistance.IsNeg then
    TryReplaceWithRotateRegisterNegPattern isOr ushrDistance shlDistance
  else
    false

/-- `ReplaceRotateWithRor` once a pattern has matched the shifts. -/
def tryRotateShifts (isOr : Bool) (ushrType : IntegralType) (ushrValue ushrDistance : HInstruction)
    (shlType : IntegralType) (shlValue shlDistance : HInstruction) : Option HInstruction :=
  if ushrType = shlType ∧ ushrValue = shlValue ∧
      rotatePatternMatches isOr ushrType.width ushrDistance shlDistance then
    some (.ror ushrType ushrValue ushrDistance)
  else
    none

/-- The inputs of an `Add`, `Xor` or `Or`, and whether it is the `Or`. -/
def rotateOperands : HInstruction → Option (Bool × HInstruction × HInstruction)
  | .add _ left right => some (false, left, right)
  | .xor _ left right => some (false, left, right)
  | .or _ left right => some (true, left, right)
  | _ => none

/-- The `Ror` that replaces `op`, if `op` is a rotate: an `UShr` and a `Shl`
of the same value, in either order. -/
def TryReplaceWithRotate (op : HInstruction) : Option HInstruction :=
  match rotateOperands op with
  | some (isOr, .ushr ushrType ushrValue ushrDistance, .shl shlType shlValue shlDistance) =>
    tryRotateShifts isOr ushrType ushrValue ushrDistance shlType shlValue shlDistance
  | some (isOr, .shl shlType shlValue shlDistance, .ushr ushrType ushrValue ushrDistance) =>
    tryRotateShifts isOr ushrType ushrValue ushrDistance shlType shlValue shlDistance
  | _ => none

section Values

/-!
## Values of shifts and rotations

Each `Compute` depends on its inputs only through their low bits, so a shift or
a rotation computes the Java operation on the `BitVec` readings of its inputs,
whatever the types of the instructions that feed it.
-/

theorem maskedDistance_eq_mod (type : IntegralType) (distance : Int) :
    maskedDistance distance type.maxShiftDistance = asUnsigned 32 distance % type.width := by
  have reading := maskedDistance_eq type (BitVec.ofInt 32 distance)
  rw [maskedDistance, asUnsigned_toInt_ofInt, ← asUnsigned_eq_toNat_ofInt] at reading
  rw [maskedDistance, reading]

theorem maskedDistance_lt (type : IntegralType) (distance : Int) :
    maskedDistance distance type.maxShiftDistance < type.width := by
  rw [maskedDistance_eq_mod]
  exact Nat.mod_lt _ type.width_pos

/-- `HRor::Compute` reads its inputs through their low bits only. -/
theorem HRor.Compute_ofInt (type : IntegralType) (value distance : Int) :
    HRor.Compute type.width (BitVec.ofInt type.width value).toInt (BitVec.ofInt 32 distance).toInt
        type.maxShiftDistance =
      HRor.Compute type.width value distance type.maxShiftDistance := by
  rw [HRor.Compute, HRor.Compute, asUnsigned_toInt_ofInt, maskedDistance, maskedDistance,
    asUnsigned_toInt_ofInt, wrap_mul_two_pow, wrap_mul_two_pow_ofInt]

variable (env : Environment) (type : IntegralType) (value distance : HInstruction)

theorem evaluate_ushr :
    evaluate env (.ushr type value distance) =
      (BitVec.ofInt type.width (evaluate env value) >>>
        maskedDistance (evaluate env distance) type.maxShiftDistance).toInt := by
  rw [evaluate, HUShr.Compute, ← asUnsigned_toInt_ofInt, asUnsigned_toInt,
    ← BitVec.toNat_ushiftRight, wrap_toNat]

theorem evaluate_shl :
    evaluate env (.shl type value distance) =
      (BitVec.ofInt type.width (evaluate env value) <<<
        maskedDistance (evaluate env distance) type.maxShiftDistance).toInt := by
  rw [evaluate, HShl.Compute, wrap_mul_two_pow_ofInt]

theorem evaluate_ror :
    evaluate env (.ror type value distance) =
      ((BitVec.ofInt type.width (evaluate env value)).rotateRight
        (maskedDistance (evaluate env distance) type.maxShiftDistance)).toInt := by
  have residue : (BitVec.ofInt 32 (evaluate env distance)).toNat % type.width =
      maskedDistance (evaluate env distance) type.maxShiftDistance := by
    rw [maskedDistance_eq_mod, asUnsigned_eq_toNat_ofInt]
  rw [evaluate, ← HRor.Compute_ofInt, HRor.Compute_eq, residue]

end Values

section Patterns

/-!
## What each pattern says about the distances

Whichever pattern matched, the two masked distances add up to a multiple of
the width, for every input.  The arithmetic is on residues: a distance the
graph computes in `int` or `long` keeps its residue modulo either width.
-/

theorem and_width_sub_one (type : IntegralType) (n : Nat) :
    n &&& (type.width - 1) = n % type.width := by
  cases type
  case kInt32 => exact Nat.and_two_pow_sub_one_eq_mod n 5
  case kInt64 => exact Nat.and_two_pow_sub_one_eq_mod n 6

theorem width_dvd_two_pow (type other : IntegralType) : (type.width : Int) ∣ 2 ^ other.width := by
  cases type <;> cases other <;> decide

/-- A wrapped value keeps its residue modulo a divisor of the register size. -/
theorem wrap_emod_of_dvd {m : Int} {w : Nat} (divides : m ∣ 2 ^ w) (value : Int) :
    wrap w value % m = value % m := by
  have reduced : value.bmod (2 ^ w) % 2 ^ w = value % 2 ^ w := by
    have congruent := Int.bmod_emod (x := value) (m := 2 ^ w)
    push_cast at congruent
    exact congruent
  rw [wrap, ← Int.emod_emod_of_dvd _ divides, reduced, Int.emod_emod_of_dvd _ divides]

/-- Distances whose sum is a multiple of the width have masked values that add
up to a multiple of it. -/
theorem maskedDistance_sum (type : IntegralType) {first second : Int}
    (multiple : (first + second) % type.width = 0) :
    (maskedDistance first type.maxShiftDistance + maskedDistance second type.maxShiftDistance) %
      type.width = 0 := by
  rw [maskedDistance_eq_mod, maskedDistance_eq_mod, asUnsigned, asUnsigned]
  cases type
  all_goals
    simp only [IntegralType.width] at multiple ⊢
    omega

theorem IsConstant_eq_true {instruction : HInstruction} (constant : instruction.IsConstant = true) :
    ∃ type value, instruction = .constant type value := by
  cases instruction
  case constant type value => exact ⟨type, value, rfl⟩
  all_goals contradiction

theorem IsSubRegBitsMinusOther_eq_true {sub other : HInstruction} {reg_bits : Nat}
    (matched : IsSubRegBitsMinusOther sub reg_bits other = true) :
    ∃ type constantType bits, sub = .sub type (.constant constantType bits) other ∧
      asUnsigned 64 bits.toInt &&& (reg_bits - 1) = 0 := by
  unfold IsSubRegBitsMinusOther at matched
  split at matched
  case h_1 type left right =>
    simp only [Bool.and_eq_true, beq_iff_eq] at matched
    obtain ⟨⟨sameOther, constant⟩, mask⟩ := matched
    obtain ⟨constantType, bits, rfl⟩ := IsConstant_eq_true constant
    exact ⟨type, constantType, bits, by rw [sameOther], mask⟩
  case h_2 => contradiction

theorem TryReplaceWithRotateRegisterNegPattern_eq_true {isOr : Bool}
    {ushrDistance shlDistance : HInstruction}
    (matched : TryReplaceWithRotateRegisterNegPattern isOr ushrDistance shlDistance = true) :
    ∃ type, shlDistance = .neg type ushrDistance ∨ ushrDistance = .neg type shlDistance := by
  unfold TryReplaceWithRotateRegisterNegPattern at matched
  -- The `Neg` is the shift left's distance when there is one there.
  by_cases negIsLeft : shlDistance.IsNeg = true
  · simp only [negIsLeft, if_true] at matched
    cases shlDistance
    case neg type negated =>
      have same : negated = ushrDistance := by
        by_contra differ
        simp [differ] at matched
      exact ⟨type, Or.inl (by rw [same])⟩
    all_goals simp [HInstruction.IsNeg] at negIsLeft
  · simp only [negIsLeft, Bool.false_eq_true, if_false] at matched
    cases ushrDistance
    case neg type negated =>
      have same : negated = shlDistance := by
        by_contra differ
        simp [differ] at matched
      exact ⟨type, Or.inr (by rw [same])⟩
    all_goals simp at matched

variable (env : Environment) (type : IntegralType)

theorem constantPattern_sum {distanceType otherType : IntegralType}
    (ushrBits : BitVec distanceType.width) (shlBits : BitVec otherType.width)
    (matched : TryReplaceWithRotateConstantPattern type.width (.constant distanceType ushrBits)
      (.constant otherType shlBits) = true) :
    (evaluate env (.constant distanceType ushrBits) +
      evaluate env (.constant otherType shlBits)) % type.width = 0 := by
  simp only [TryReplaceWithRotateConstantPattern, HInstruction.Int64FromConstant, beq_iff_eq,
    and_width_sub_one, asUnsigned] at matched
  simp only [evaluate]
  cases type
  all_goals
    simp only [IntegralType.width] at matched ⊢
    omega

/-- `(#bits - d) + d` is `#bits`, a multiple of the width. -/
theorem subPattern_sum (subType constantType : IntegralType) (bits : BitVec constantType.width)
    (other : HInstruction) (mask : asUnsigned 64 bits.toInt &&& (type.width - 1) = 0) :
    (evaluate env other + evaluate env (.sub subType (.constant constantType bits) other)) %
      type.width = 0 := by
  have residue := wrap_emod_of_dvd (width_dvd_two_pow type subType) (bits.toInt - evaluate env other)
  rw [and_width_sub_one, asUnsigned] at mask
  simp only [evaluate, HSub.Compute]
  cases type
  all_goals
    simp only [IntegralType.width] at mask residue ⊢
    omega

/-- `-d + d` is zero. -/
theorem negPattern_sum (negType : IntegralType) (other : HInstruction) :
    (evaluate env other + evaluate env (.neg negType other)) % type.width = 0 := by
  have residue := wrap_emod_of_dvd (width_dvd_two_pow type negType) (-evaluate env other)
  simp only [evaluate, HNeg.Compute]
  cases type
  all_goals
    simp only [IntegralType.width] at residue ⊢
    omega

/-- Whichever pattern matched, the masked distances add up to a multiple of the
width at every input. -/
theorem rotatePatternMatches_sum {isOr : Bool} {ushrDistance shlDistance : HInstruction}
    (matched : rotatePatternMatches isOr type.width ushrDistance shlDistance = true) :
    (maskedDistance (evaluate env ushrDistance) type.maxShiftDistance +
      maskedDistance (evaluate env shlDistance) type.maxShiftDistance) % type.width = 0 := by
  apply maskedDistance_sum
  unfold rotatePatternMatches at matched
  split at matched
  case isTrue constants =>
    simp only [Bool.and_eq_true] at constants
    obtain ⟨ushrType, ushrBits, rfl⟩ := IsConstant_eq_true constants.1
    obtain ⟨shlType, shlBits, rfl⟩ := IsConstant_eq_true constants.2
    exact constantPattern_sum env type ushrBits shlBits matched
  case isFalse =>
    split at matched
    case isTrue =>
      simp only [TryReplaceWithRotateRegisterSubPattern, Bool.or_eq_true, Bool.and_eq_true] at matched
      rcases matched with ⟨-, shlIsSub⟩ | ⟨-, ushrIsSub⟩
      · obtain ⟨subType, constantType, bits, rfl, mask⟩ := IsSubRegBitsMinusOther_eq_true shlIsSub
        exact subPattern_sum env type subType constantType bits ushrDistance mask
      · obtain ⟨subType, constantType, bits, rfl, mask⟩ := IsSubRegBitsMinusOther_eq_true ushrIsSub
        rw [Int.add_comm]
        exact subPattern_sum env type subType constantType bits shlDistance mask
    case isFalse =>
      split at matched
      case isTrue =>
        obtain ⟨negType, shlIsNeg | ushrIsNeg⟩ :=
          TryReplaceWithRotateRegisterNegPattern_eq_true matched
        · rw [shlIsNeg]
          exact negPattern_sum env type negType ushrDistance
        · rw [ushrIsNeg, Int.add_comm]
          exact negPattern_sum env type negType shlDistance
      case isFalse => contradiction

end Patterns

section Soundness

theorem TryReplaceWithRotate_cases {op replacement : HInstruction}
    (replaced : TryReplaceWithRotate op = some replacement) :
    ∃ isOr ushrType ushrValue ushrDistance shlType shlValue shlDistance,
      (rotateOperands op = some (isOr, .ushr ushrType ushrValue ushrDistance,
          .shl shlType shlValue shlDistance) ∨
        rotateOperands op = some (isOr, .shl shlType shlValue shlDistance,
          .ushr ushrType ushrValue ushrDistance)) ∧
      tryRotateShifts isOr ushrType ushrValue ushrDistance shlType shlValue shlDistance =
        some replacement := by
  unfold TryReplaceWithRotate at replaced
  split at replaced
  case h_1 isOr ushrType ushrValue ushrDistance shlType shlValue shlDistance inOrder =>
    exact ⟨isOr, ushrType, ushrValue, ushrDistance, shlType, shlValue, shlDistance,
      Or.inl inOrder, replaced⟩
  case h_2 isOr shlType shlValue shlDistance ushrType ushrValue ushrDistance swapped =>
    exact ⟨isOr, ushrType, ushrValue, ushrDistance, shlType, shlValue, shlDistance,
      Or.inr swapped, replaced⟩
  case h_3 => contradiction

theorem tryRotateShifts_eq_some {isOr : Bool} {ushrType shlType : IntegralType}
    {ushrValue ushrDistance shlValue shlDistance replacement : HInstruction}
    (found : tryRotateShifts isOr ushrType ushrValue ushrDistance shlType shlValue shlDistance =
      some replacement) :
    ushrType = shlType ∧ ushrValue = shlValue ∧ replacement = .ror ushrType ushrValue ushrDistance ∧
      rotatePatternMatches isOr ushrType.width ushrDistance shlDistance = true := by
  unfold tryRotateShifts at found
  split at found
  case isTrue matched =>
    obtain ⟨sameType, sameValue, patternMatches⟩ := matched
    exact ⟨sameType, sameValue, (Option.some.inj found).symm, patternMatches⟩
  case isFalse => contradiction

/-- An `Add`, `Xor` or `Or` of values with disjoint bits is their `|`; an `Or`
is, whatever the bits. -/
theorem evaluate_rotateOperands {op left right : HInstruction} {isOr : Bool} {type : IntegralType}
    (operands : rotateOperands op = some (isOr, left, right))
    (typed : op.GetType = type)
    (env : Environment)
    {first second : BitVec type.width}
    (leftIs : evaluate env left = first.toInt)
    (rightIs : evaluate env right = second.toInt)
    (combines : isOr = true ∨ first &&& second = 0) :
    evaluate env op = (first ||| second).toInt := by
  cases op
  case add opType opLeft opRight =>
    simp only [rotateOperands, Option.some.injEq, Prod.mk.injEq] at operands
    obtain ⟨rfl, rfl, rfl⟩ := operands
    simp only [HInstruction.GetType] at typed
    subst typed
    have disjoint : first &&& second = 0 := by simpa using combines
    rw [evaluate, leftIs, rightIs, HAdd.Compute_eq, BitVec.add_eq_or_of_and_eq_zero _ _ disjoint]
  case xor opType opLeft opRight =>
    simp only [rotateOperands, Option.some.injEq, Prod.mk.injEq] at operands
    obtain ⟨rfl, rfl, rfl⟩ := operands
    simp only [HInstruction.GetType] at typed
    subst typed
    have disjoint : first &&& second = 0 := by simpa using combines
    rw [evaluate, leftIs, rightIs, HXor.Compute_eq, xor_eq_or_of_and_eq_zero disjoint]
  case or opType opLeft opRight =>
    simp only [rotateOperands, Option.some.injEq, Prod.mk.injEq] at operands
    obtain ⟨rfl, rfl, rfl⟩ := operands
    simp only [HInstruction.GetType] at typed
    subst typed
    rw [evaluate, leftIs, rightIs, HOr.Compute_eq]
  all_goals simp [rotateOperands] at operands

theorem rotateOperands_isOr {op left right : HInstruction} {isOr : Bool}
    (operands : rotateOperands op = some (isOr, left, right)) : op.IsOr = isOr := by
  cases op <;> simp_all [rotateOperands, HInstruction.IsOr]

/-- The `Ror` computes what the instruction it replaces computes, for every
input, when that instruction is an `Or` or the rotation distance is not zero
modulo the width.  The shifted halves are then disjoint, so `+`, `^` and `|`
agree on them, and the patterns make the two distances complementary. -/
theorem TryReplaceWithRotate_sound {op : HInstruction} {type : IntegralType}
    {value distance : HInstruction}
    (replaced : TryReplaceWithRotate op = some (.ror type value distance))
    (typed : op.GetType = type)
    (env : Environment)
    (rotates : op.IsOr = true ∨ maskedDistance (evaluate env distance) type.maxShiftDistance ≠ 0) :
    evaluate env (.ror type value distance) = evaluate env op := by
  obtain ⟨isOr, ushrType, ushrValue, ushrDistance, shlType, shlValue, shlDistance, operands,
    shifts⟩ := TryReplaceWithRotate_cases replaced
  obtain ⟨rfl, rfl, ror, patternMatches⟩ := tryRotateShifts_eq_some shifts
  injection ror with sameType sameValue sameDistance
  subst sameType sameValue sameDistance
  have sum := rotatePatternMatches_sum env type patternMatches
  have rBelow := maskedDistance_lt type (evaluate env distance)
  have sBelow := maskedDistance_lt type (evaluate env shlDistance)
  rw [evaluate_ror]
  have ushrIs := evaluate_ushr env type value distance
  have shlIs := evaluate_shl env type value shlDistance
  generalize BitVec.ofInt type.width (evaluate env value) = bits at ushrIs shlIs ⊢
  generalize maskedDistance (evaluate env distance) type.maxShiftDistance = r at *
  generalize maskedDistance (evaluate env shlDistance) type.maxShiftDistance = s at *
  have rotation := ushiftRight_or_shiftLeft_eq_rotateRight bits rBelow sBelow sum
  have isOrIs : op.IsOr = isOr := by
    rcases operands with inOrder | swapped
    · exact rotateOperands_isOr inOrder
    · exact rotateOperands_isOr swapped
  -- Away from `Or` the distance is not zero and the halves are disjoint.
  have combines : isOr = true ∨ (bits >>> r) &&& (bits <<< s) = 0 := by
    rcases rotates with isOrTrue | nonzero
    · exact Or.inl (isOrIs ▸ isOrTrue)
    · exact Or.inr (ushiftRight_and_shiftLeft_eq_zero_of_mod bits rBelow sBelow sum nonzero)
  rcases operands with inOrder | swapped
  · rw [evaluate_rotateOperands inOrder typed env ushrIs shlIs combines, rotation]
  · have combinesSwapped : isOr = true ∨ (bits <<< s) &&& (bits >>> r) = 0 := by
      rwa [BitVec.and_comm]
    rw [evaluate_rotateOperands swapped typed env shlIs ushrIs combinesSwapped, BitVec.or_comm,
      rotation]

/-- At a zero rotation distance the `Ror` returns the value, while the `Add`
it replaces adds the two shifts, which are then both the value. -/
theorem TryReplaceWithRotate_zero_distance {type : IntegralType}
    {left right value distance : HInstruction}
    (replaced : TryReplaceWithRotate (.add type left right) = some (.ror type value distance))
    (env : Environment)
    (zero : maskedDistance (evaluate env distance) type.maxShiftDistance = 0) :
    evaluate env (.add type left right) =
      HAdd.Compute type.width (evaluate env (.ror type value distance))
        (evaluate env (.ror type value distance)) := by
  obtain ⟨isOr, ushrType, ushrValue, ushrDistance, shlType, shlValue, shlDistance, operands,
    shifts⟩ := TryReplaceWithRotate_cases replaced
  obtain ⟨rfl, rfl, ror, patternMatches⟩ := tryRotateShifts_eq_some shifts
  injection ror with sameType sameValue sameDistance
  subst sameType sameValue sameDistance
  -- The other distance is then zero too.
  have sum := rotatePatternMatches_sum env type patternMatches
  have sBelow := maskedDistance_lt type (evaluate env shlDistance)
  rw [zero, Nat.zero_add, Nat.mod_eq_of_lt sBelow] at sum
  have ushrIs := evaluate_ushr env type value distance
  have shlIs := evaluate_shl env type value shlDistance
  rw [zero, BitVec.ushiftRight_zero] at ushrIs
  rw [sum, BitVec.shiftLeft_zero] at shlIs
  have rorIs := evaluate_ror env type value distance
  rw [zero] at rorIs
  simp only [rotateOperands, Option.some.injEq, Prod.mk.injEq] at operands
  rcases operands with ⟨-, rfl, rfl⟩ | ⟨-, rfl, rfl⟩
  all_goals
    rw [evaluate, ushrIs, shlIs, rorIs]
    simp [BitVec.rotateRight_def]

/-- `(x >>> d) + (x << (32 - d))` on `int`: the `#bits - d` pattern turns it
into `Ror(x, d)`, which at `x = 1`, `d = 0` is `1` where the `Add` is `2`. -/
theorem TryReplaceWithRotate_sub_pattern_add_at_zero_distance :
    TryReplaceWithRotate
        (.add .kInt32 (.ushr .kInt32 (.parameterValue .kInt32 0) (.parameterValue .kInt32 1))
          (.shl .kInt32 (.parameterValue .kInt32 0)
            (.sub .kInt32 (.constant .kInt32 32) (.parameterValue .kInt32 1)))) =
        some (.ror .kInt32 (.parameterValue .kInt32 0) (.parameterValue .kInt32 1)) ∧
      evaluate (fun _ index => if index = 0 then 1 else 0)
          (.add .kInt32 (.ushr .kInt32 (.parameterValue .kInt32 0) (.parameterValue .kInt32 1))
            (.shl .kInt32 (.parameterValue .kInt32 0)
              (.sub .kInt32 (.constant .kInt32 32) (.parameterValue .kInt32 1)))) = 2 ∧
      evaluate (fun _ index => if index = 0 then 1 else 0)
          (.ror .kInt32 (.parameterValue .kInt32 0) (.parameterValue .kInt32 1)) = 1 := by
  decide

end Soundness

end ArtRuntime.Optimizing
