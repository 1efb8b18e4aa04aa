import ArtRuntime.Bits.TwosComplement

namespace ArtRuntime.BoundsCheckElimination

open ArtRuntime.TwosComplement

/-!
# Range arithmetic of bounds check elimination

`bounds_check_elimination.cc` describes the values an `int` can take by a
`ValueRange` of two `ValueBound`s, each an instruction plus an `int32_t`
constant (`array.length - 1`) or a constant alone.  A bound is read as the
value of its instruction plus its constant, every array length lying in
`[0, INT32_MAX]`.

* `ValueBound.Add_exact`: a bound shifted by a constant without a flag is
  the old bound plus the constant.
* `ValueRange.Add_sound_of_no_flags`: shifting a range is sound when neither
  bound raised a flag.  `ValueRange::Add` only looks at the lower bound's
  underflow flag and the upper bound's overflow flag:
  `ValueRange_Add_array_length_lower_bound` shows the range
  `[array.length, 100]` shifted by one becoming `[INT32_MAX, 101]`, which
  leaves out the shifted values.
* `MonotonicValueRange.Narrow_sound`: when `Narrow` turns the range of an
  induction variable into a plain range, every value the loop phi takes while
  the loop runs lies in the result, and adding the increment does not wrap.
-/

/-- What the analysis reads of an instruction. -/
inductive InstructionKind where
  | intConstant (value : Int32)
  | arrayLength
  | newArray
  | other
  deriving DecidableEq, Repr

/-- An instruction of the graph: its identity and what it is.  `ValueBound::Equal`
compares instructions after `HuntForDeclaration`; the model's instructions are
the declarations themselves. -/
structure HInstruction where
  id : Nat
  kind : InstructionKind
  deriving DecidableEq, Repr

/-- Whether `left + right` overflows or underflows an `int32_t`. -/
def WouldAddOverflowOrUnderflow (left right : Int32) : Bool :=
  if right = 0 then false
  -- No overflow.
  else if right > 0 ∧ left ≤ Int32.maxValue - right then false
  -- No underflow.
  else if right < 0 ∧ left ≥ Int32.minValue - right then false
  else true

/-- `instruction_ + constant_`, or `constant_` alone when there is no
instruction. -/
structure ValueBound where
  instruction_ : Option HInstruction
  constant_ : Int32
  deriving DecidableEq, Repr

namespace ValueBound

/-- The constructor `ValueBound(instruction, constant)`: a constant
instruction is folded into the constant when the sum does not overflow. -/
def make (instruction : Option HInstruction) (constant : Int32) : ValueBound :=
  match instruction with
  | some instr =>
    match instr.kind with
    | .intConstant instr_const =>
      if !WouldAddOverflowOrUnderflow instr_const constant then ⟨none, instr_const + constant⟩
      else ⟨some instr, constant⟩
    | _ => ⟨some instr, constant⟩
  | none => ⟨none, constant⟩

def IsConstant (bound : ValueBound) : Bool :=
  bound.instruction_.isNone

/-- Bounds created with a `NewArray` as instruction are treated like its
`ArrayLength`. -/
def IsRelatedToArrayLength (bound : ValueBound) : Bool :=
  match bound.instruction_ with
  | some instr => instr.kind == .arrayLength || instr.kind == .newArray
  | none => false

def Min : ValueBound := make none Int32.minValue

def Max : ValueBound := make none Int32.maxValue

def Equal (instruction1 instruction2 : Option HInstruction) : Bool :=
  instruction1 == instruction2

/-- Whether it is certain that this bound is `≥ bound`. -/
def GreaterThanOrEqualTo (this bound : ValueBound) : Bool :=
  if Equal this.instruction_ bound.instruction_ then this.constant_ ≥ bound.constant_ else false

/-- Whether it is certain that this bound is `≤ bound`. -/
def LessThanOrEqualTo (this bound : ValueBound) : Bool :=
  if Equal this.instruction_ bound.instruction_ then this.constant_ ≤ bound.constant_ else false

/-- The greater of two lower bounds if they compare; a constant one
otherwise. -/
def NarrowLowerBound (bound1 bound2 : ValueBound) : ValueBound :=
  if bound1.GreaterThanOrEqualTo bound2 then bound1
  else if bound2.GreaterThanOrEqualTo bound1 then bound2
  else if bound1.IsConstant then bound1 else bound2

/-- The lesser of two upper bounds if they compare; an array length related
one otherwise. -/
def NarrowUpperBound (bound1 bound2 : ValueBound) : ValueBound :=
  if bound1.LessThanOrEqualTo bound2 then bound1
  else if bound2.LessThanOrEqualTo bound1 then bound2
  else if bound1.IsRelatedToArrayLength then bound1 else bound2

/-- `Add(c, &overflow, &underflow)`: the shifted bound, and whether it may
overflow or underflow an `int`. -/
def Add (this : ValueBound) (c : Int32) : ValueBound × Bool × Bool :=
  if c = 0 then (this, false, false)
  else if c > 0 then
    if this.constant_ > Int32.maxValue - c then (Max, true, false)
    else
      let new_constant := this.constant_ + c
      -- (array.length + non-positive-constant) won't overflow an int.
      if this.IsConstant || (this.IsRelatedToArrayLength && new_constant ≤ 0) then
        (make this.instruction_ new_constant, false, false)
      else
        -- Be conservative.
        (Max, true, false)
  else
    if this.constant_ < Int32.minValue - c then (Min, false, true)
    else
      let new_constant := this.constant_ + c
      -- array.length + new_constant never underflows, as array.length is at least 0.
      if this.IsConstant || this.IsRelatedToArrayLength then
        (make this.instruction_ new_constant, false, false)
      else
        -- Be conservative.
        (Min, false, true)

end ValueBound

/-- Both bounds inclusive. -/
structure ValueRange where
  lower_ : ValueBound
  upper_ : ValueBound
  deriving DecidableEq, Repr

/-- `ValueRange::Add(constant)`: `nullptr` is `none`. -/
def ValueRange.Add (this : ValueRange) (constant : Int32) : Option ValueRange :=
  let (lower, _, underflow) := this.lower_.Add constant
  -- Lower bound underflow will wrap around to positive values and invalidate
  -- the upper bound.
  if underflow then none
  else
    let (upper, overflow, _) := this.upper_.Add constant
    -- Upper bound overflow will wrap around to negative values and invalidate
    -- the lower bound.
    if overflow then none else some ⟨lower, upper⟩

/-- The range of an induction variable `initial_, initial_ + increment_, ...`
before narrowing; `bound_` is a bound of `initial_`. -/
structure MonotonicValueRange where
  initial_ : HInstruction
  increment_ : Int32
  bound_ : ValueBound
  deriving DecidableEq, Repr

/-- `MonotonicValueRange::Narrow(range)`: a plain range, or `none` where the
code returns the monotonic range itself. -/
def MonotonicValueRange.Narrow (this : MonotonicValueRange) (range : ValueRange) :
    Option ValueRange :=
  if this.increment_ > 0 then
    -- Monotonically increasing.
    let lower := ValueBound.NarrowLowerBound this.bound_ range.lower_
    if !lower.IsConstant || lower.constant_ = Int32.minValue then none
    else
      -- The maximum array length is assumed to be `Max()`.
      let max_array_len := Int32.maxValue
      let upper_bound := range.upper_
      let upper : Int32 :=
        if upper_bound.IsConstant then upper_bound.constant_
        else if upper_bound.IsRelatedToArrayLength && upper_bound.constant_ ≤ 0 then
          max_array_len + upper_bound.constant_
        else Int32.maxValue
      -- Be conservative first, assume the last number in the sequence hits upper.
      let last_num_in_sequence : Int32 :=
        match this.initial_.kind with
        | .intConstant initial_constant =>
          if upper ≤ initial_constant then upper
          else
            (initial_constant.toInt64 +
              (upper.toInt64 - initial_constant.toInt64) / this.increment_.toInt64 *
                this.increment_.toInt64).toInt32
        | _ => upper
      if last_num_in_sequence ≤ Int32.maxValue - this.increment_ then
        some ⟨lower, range.upper_⟩
      else
        none
  else
    -- Monotonically decreasing.
    let upper := ValueBound.NarrowUpperBound this.bound_ range.upper_
    if (!upper.IsConstant || upper.constant_ = Int32.maxValue) && !upper.IsRelatedToArrayLength then
      none
    else if range.lower_.IsConstant then
      if range.lower_.constant_ ≥ Int32.minValue - this.increment_ then
        some ⟨range.lower_, upper⟩
      else
        none
    else
      none

section Values

/-!
## What a bound means

The values the instructions hold at one point of a run: every instruction an
`int`, a constant its own value, and an array length, or the length of a new
array, in `[0, INT32_MAX]`.
-/

def ValidValues (value : HInstruction → Int) : Prop :=
  ∀ instr, (-2 ^ 31 ≤ value instr ∧ value instr < 2 ^ 31) ∧
    (∀ constant, instr.kind = .intConstant constant → value instr = constant.toInt) ∧
    (instr.kind = .arrayLength ∨ instr.kind = .newArray → 0 ≤ value instr)

/-- A bound's value: its instruction's value plus its constant. -/
def ValueBound.valueIn (bound : ValueBound) (value : HInstruction → Int) : Int :=
  (match bound.instruction_ with
    | some instr => value instr
    | none => 0) + bound.constant_.toInt

def ValueRange.Contains (range : ValueRange) (value : HInstruction → Int) (v : Int) : Prop :=
  range.lower_.valueIn value ≤ v ∧ v ≤ range.upper_.valueIn value

/-- The bounds the claims of the analysis are about: constants, and array
lengths plus a constant. -/
def ValueBound.IsConstantOrArrayLength (bound : ValueBound) : Prop :=
  bound.IsConstant = true ∨ bound.IsRelatedToArrayLength = true

variable {value : HInstruction → Int}

theorem maxValue_sub_toInt {right : Int32} (nonneg : 0 ≤ right.toInt) :
    (Int32.maxValue - right).toInt = 2 ^ 31 - 1 - right.toInt := by
  have below := Int32.toInt_lt right
  rw [Int32.toInt_sub_of_bounds] <;> rw [Int32.toInt_maxValue] <;> omega

theorem minValue_sub_toInt {right : Int32} (nonpositive : right.toInt ≤ 0) :
    (Int32.minValue - right).toInt = -2 ^ 31 - right.toInt := by
  have above := Int32.le_toInt right
  rw [Int32.toInt_sub_of_bounds] <;> rw [Int32.toInt_minValue] <;> omega

theorem WouldAddOverflowOrUnderflow_eq_false_iff (left right : Int32) :
    WouldAddOverflowOrUnderflow left right = false ↔
      -2 ^ 31 ≤ left.toInt + right.toInt ∧ left.toInt + right.toInt < 2 ^ 31 := by
  have leftAbove := Int32.le_toInt left
  have leftBelow := Int32.toInt_lt left
  have rightAbove := Int32.le_toInt right
  have rightBelow := Int32.toInt_lt right
  unfold WouldAddOverflowOrUnderflow
  simp only [← Int32.toInt_inj, Int32.toInt_zero, gt_iff_lt, ge_iff_le, Int32.lt_iff_toInt_lt,
    Int32.le_iff_toInt_le]
  -- The sign of `right` decides which of the two sums the code forms.
  rcases Int.lt_trichotomy right.toInt 0 with negative | zero | positive
  · rw [minValue_sub_toInt (Int.le_of_lt negative)]
    split_ifs <;> simp only [true_iff, false_iff, not_and_or, Int.not_le,
      Int.not_lt] <;> omega
  · rw [if_pos zero]
    simp only [true_iff]
    omega
  · rw [maxValue_sub_toInt (Int.le_of_lt positive)]
    split_ifs <;> simp only [true_iff, false_iff, not_and_or, Int.not_le,
      Int.not_lt] <;> omega

/-- Folding a constant instruction into the constant keeps the bound's
value. -/
theorem ValueBound.make_valueIn (valid : ValidValues value)
    (instruction : Option HInstruction) (constant : Int32) :
    (ValueBound.make instruction constant).valueIn value =
      (ValueBound.mk instruction constant).valueIn value := by
  rcases instruction with _ | instr
  · rfl
  · simp only [ValueBound.make]
    split
    next instr_const kind =>
      split
      next fits =>
        have sum := (WouldAddOverflowOrUnderflow_eq_false_iff instr_const constant).mp
          (by simpa using fits)
        simp only [ValueBound.valueIn, Int32.toInt_add_of_bounds sum.1 sum.2,
          (valid instr).2.1 instr_const kind]
        omega
      next => rfl
    next => rfl

/-- What `Add` returns when it raises no flag: the bound itself for a zero
constant; otherwise the shifted constant, which fits an `int32_t`, on a
constant bound or on an array length, whose sum is at most zero when it
grows. -/
theorem ValueBound.Add_eq_of_no_flags {this bound : ValueBound} {c : Int32}
    (added : this.Add c = (bound, false, false)) :
    (c = 0 ∧ bound = this) ∨
      (bound = make this.instruction_ (this.constant_ + c) ∧
        -2 ^ 31 ≤ this.constant_.toInt + c.toInt ∧ this.constant_.toInt + c.toInt < 2 ^ 31 ∧
        (this.IsConstant = true ∨
          this.IsRelatedToArrayLength = true ∧
            (c.toInt < 0 ∨ this.constant_.toInt + c.toInt ≤ 0))) := by
  have constantAbove := Int32.le_toInt this.constant_
  have constantBelow := Int32.toInt_lt this.constant_
  have cAbove := Int32.le_toInt c
  have cBelow := Int32.toInt_lt c
  unfold ValueBound.Add at added
  split at added
  next zero => exact Or.inl ⟨zero, (Prod.mk.inj added).1.symm⟩
  next nonzero =>
    have nonzero : c.toInt ≠ 0 := by rwa [Ne, ← Int32.toInt_zero, Int32.toInt_inj]
    right
    split at added
    next positive =>
      rw [gt_iff_lt, Int32.lt_iff_toInt_lt, Int32.toInt_zero] at positive
      split at added
      next => simp only [Prod.mk.injEq, Bool.true_eq_false, false_and, and_false] at added
      next fits =>
        rw [gt_iff_lt, Int32.lt_iff_toInt_lt, maxValue_sub_toInt (Int.le_of_lt positive)] at fits
        have sum := Int32.toInt_add_of_bounds (a := this.constant_) (b := c) (by omega) (by omega)
        dsimp only at added
        split at added
        next kind =>
          simp only [Prod.mk.injEq, and_true] at added
          simp only [Bool.or_eq_true, Bool.and_eq_true, decide_eq_true_eq, Int32.le_iff_toInt_le,
            sum, Int32.toInt_zero] at kind
          exact ⟨added.symm, by omega, by omega,
            kind.imp_right fun array => ⟨array.1, Or.inr array.2⟩⟩
        next => simp only [Prod.mk.injEq, Bool.true_eq_false, false_and, and_false] at added
    next nonpositive =>
      rw [gt_iff_lt, Int32.lt_iff_toInt_lt, Int32.toInt_zero] at nonpositive
      have negative : c.toInt < 0 := by omega
      split at added
      next => simp only [Prod.mk.injEq, Bool.true_eq_false, and_false] at added
      next fits =>
        rw [Int32.lt_iff_toInt_lt, minValue_sub_toInt (Int.le_of_lt negative)] at fits
        have sum := Int32.toInt_add_of_bounds (a := this.constant_) (b := c) (by omega) (by omega)
        dsimp only at added
        split at added
        next kind =>
          simp only [Prod.mk.injEq, and_true] at added
          simp only [Bool.or_eq_true] at kind
          exact ⟨added.symm, by omega, by omega, kind.imp_right fun array => ⟨array, Or.inl negative⟩⟩
        next => simp only [Prod.mk.injEq, Bool.true_eq_false, and_false] at added

/-- A bound shifted by a constant without a flag is the old bound plus the
constant. -/
theorem ValueBound.Add_exact (valid : ValidValues value) {this bound : ValueBound} {c : Int32}
    (added : this.Add c = (bound, false, false)) :
    bound.valueIn value = this.valueIn value + c.toInt := by
  rcases ValueBound.Add_eq_of_no_flags added with ⟨zero, rfl⟩ | ⟨rfl, lower, upper, -⟩
  · rw [zero, Int32.toInt_zero, Int.add_zero]
  · rw [ValueBound.make_valueIn valid]
    simp only [ValueBound.valueIn, Int32.toInt_add_of_bounds lower upper]
    omega

theorem ValueBound.valueIn_of_IsConstant {bound : ValueBound}
    (constant : bound.IsConstant = true) :
    bound.valueIn value = bound.constant_.toInt := by
  rw [ValueBound.IsConstant, Option.isNone_iff_eq_none] at constant
  simp only [ValueBound.valueIn, constant, Int.zero_add]

/-- An array length bound lies between its constant and `INT32_MAX` above
it. -/
theorem ValueBound.valueIn_of_IsRelatedToArrayLength (valid : ValidValues value)
    {bound : ValueBound} (array : bound.IsRelatedToArrayLength = true) :
    bound.constant_.toInt ≤ bound.valueIn value ∧
      bound.valueIn value < 2 ^ 31 + bound.constant_.toInt := by
  unfold ValueBound.IsRelatedToArrayLength at array
  unfold ValueBound.valueIn
  split at array
  next instr some =>
    simp only [Bool.or_eq_true, beq_iff_eq] at array
    have length := (valid instr).2.2 array
    have below := (valid instr).1.2
    omega
  next => contradiction

/-- The side of `int32_t` a shift without a flag stays on: a bound shifted up
is below `2 ^ 31`, one shifted down at least `-2 ^ 31`. -/
theorem ValueBound.Add_no_flags_bounds (valid : ValidValues value) {this bound : ValueBound}
    {c : Int32} (added : this.Add c = (bound, false, false)) :
    (0 < c.toInt → bound.valueIn value < 2 ^ 31) ∧
      (c.toInt < 0 → -2 ^ 31 ≤ bound.valueIn value) := by
  have exact := ValueBound.Add_exact valid added
  rcases ValueBound.Add_eq_of_no_flags added with ⟨zero, -⟩ | ⟨-, lower, upper, kind⟩
  · simp only [zero, Int32.toInt_zero]
    omega
  · rcases kind with constant | ⟨array, shift⟩
    · rw [exact, ValueBound.valueIn_of_IsConstant constant]
      omega
    · have length := ValueBound.valueIn_of_IsRelatedToArrayLength valid array
      omega

/-- Shifting a range is sound when neither bound raised a flag: every `int`
of the range, shifted, does not wrap and lies in the shifted range. -/
theorem ValueRange.Add_sound_of_no_flags (valid : ValidValues value)
    {range result : ValueRange} {c : Int32}
    (lowerExact : (range.lower_.Add c).2 = (false, false))
    (upperExact : (range.upper_.Add c).2 = (false, false))
    (added : range.Add c = some result) {v : Int}
    (isInt : -2 ^ 31 ≤ v ∧ v < 2 ^ 31) (contains : range.Contains value v) :
    (-2 ^ 31 ≤ v + c.toInt ∧ v + c.toInt < 2 ^ 31) ∧ result.Contains value (v + c.toInt) := by
  obtain ⟨lower, lowerAdded⟩ : ∃ lower, range.lower_.Add c = (lower, false, false) :=
    ⟨_, by rw [← lowerExact]⟩
  obtain ⟨upper, upperAdded⟩ : ∃ upper, range.upper_.Add c = (upper, false, false) :=
    ⟨_, by rw [← upperExact]⟩
  simp only [ValueRange.Add, lowerAdded, upperAdded, Bool.false_eq_true, if_false,
    Option.some.injEq] at added
  subst added
  have lowerValue := ValueBound.Add_exact valid lowerAdded
  have upperValue := ValueBound.Add_exact valid upperAdded
  have lowerSide := ValueBound.Add_no_flags_bounds valid lowerAdded
  have upperSide := ValueBound.Add_no_flags_bounds valid upperAdded
  unfold ValueRange.Contains at contains ⊢
  rw [lowerValue, upperValue]
  -- The sign of `c` decides which of the two bounds keeps the sum an `int`.
  rcases Int.lt_trichotomy c.toInt 0 with negative | zero | positive
  · have := lowerSide.2 negative
    omega
  · omega
  · have := upperSide.1 positive
    omega

/-- Values where every instruction but a constant holds `length`. -/
def lengthValues (length : Int) (instr : HInstruction) : Int :=
  match instr.kind with
  | .intConstant constant => constant.toInt
  | _ => length

theorem lengthValues_valid {length : Int} (nonneg : 0 ≤ length) (below : length < 2 ^ 31) :
    ValidValues (lengthValues length) := by
  intro instr
  unfold lengthValues
  split
  next constant kind =>
    have constantAbove := Int32.le_toInt constant
    have constantBelow := Int32.toInt_lt constant
    refine ⟨⟨by omega, by omega⟩, ?_, ?_⟩
    · intro other otherKind
      rw [kind] at otherKind
      cases otherKind
      rfl
    · rintro (array | array) <;> rw [kind] at array <;> cases array
  next notConstant =>
    exact ⟨⟨by omega, below⟩, fun constant kind => (notConstant constant kind).elim,
      fun _ => nonneg⟩

/-- `ValueRange::Add` reads only the underflow flag of the lower bound: the
range `[array.length, 100]` shifted by one becomes `[INT32_MAX, 101]`, which
leaves out the shifted value of an array of length five. -/
theorem ValueRange_Add_array_length_lower_bound :
    ValidValues (lengthValues 5) ∧
      (ValueRange.mk ⟨some ⟨0, .arrayLength⟩, 0⟩ ⟨none, 100⟩).Contains (lengthValues 5) 5 ∧
      (ValueRange.mk ⟨some ⟨0, .arrayLength⟩, 0⟩ ⟨none, 100⟩).Add 1 =
        some ⟨ValueBound.Max, ⟨none, 101⟩⟩ ∧
      ¬(ValueRange.mk ValueBound.Max ⟨none, 101⟩).Contains (lengthValues 5) (5 + 1) := by
  refine ⟨lengthValues_valid (by decide) (by decide), ?_, by decide, ?_⟩
  · unfold ValueRange.Contains ValueBound.valueIn
    decide
  · unfold ValueRange.Contains ValueBound.valueIn
    decide

end Values

section Narrow

/-!
## Narrowing the range of an induction variable

The loop phi of a `MonotonicValueRange` takes `initial_`, then each value plus
`increment_` in `int` arithmetic, for as long as the loop runs: as long as the
values lie in the range the loop condition gives.
-/

/-- The `k`-th value of the loop phi. -/
def MonotonicValueRange.term (this : MonotonicValueRange) (value : HInstruction → Int) :
    Nat → Int
  | 0 => value this.initial_
  | k + 1 => wrap 32 (this.term value k + this.increment_.toInt)

/-- `bound_` bounds `initial_` on the side the sequence moves away from. -/
def MonotonicValueRange.BoundsInitial (this : MonotonicValueRange)
    (value : HInstruction → Int) : Prop :=
  if this.increment_ > 0 then this.bound_.valueIn value ≤ value this.initial_
  else value this.initial_ ≤ this.bound_.valueIn value

variable {value : HInstruction → Int}

theorem ValueBound.NarrowLowerBound_eq_or (bound1 bound2 : ValueBound) :
    ValueBound.NarrowLowerBound bound1 bound2 = bound1 ∨
      ValueBound.NarrowLowerBound bound1 bound2 = bound2 := by
  unfold ValueBound.NarrowLowerBound
  split_ifs <;> simp only [true_or, or_true]

theorem ValueBound.NarrowUpperBound_eq_or (bound1 bound2 : ValueBound) :
    ValueBound.NarrowUpperBound bound1 bound2 = bound1 ∨
      ValueBound.NarrowUpperBound bound1 bound2 = bound2 := by
  unfold ValueBound.NarrowUpperBound
  split_ifs <;> simp only [true_or, or_true]

/-- The `int64_t` computation of `last_num_in_sequence`: the greatest
`initial + q * increment` not above `upper`. -/
theorem last_num_in_sequence_toInt {initial upper increment : Int32}
    (positive : 0 < increment.toInt) (below : initial.toInt < upper.toInt) :
    (initial.toInt64 + (upper.toInt64 - initial.toInt64) / increment.toInt64 *
        increment.toInt64).toInt32.toInt =
      initial.toInt + (upper.toInt - initial.toInt) / increment.toInt * increment.toInt := by
  have initialAbove := Int32.le_toInt initial
  have upperBelow := Int32.toInt_lt upper
  have incrementBelow := Int32.toInt_lt increment
  have difference : (upper.toInt64 - initial.toInt64).toInt = upper.toInt - initial.toInt := by
    rw [Int64.toInt_sub_of_bounds] <;> simp only [Int32.toInt_toInt64] <;> omega
  have quotient : ((upper.toInt64 - initial.toInt64) / increment.toInt64).toInt =
      (upper.toInt - initial.toInt) / increment.toInt := by
    rw [Int64.toInt_div_of_nonneg] <;> simp only [difference, Int32.toInt_toInt64] <;> omega
  -- The step `q * increment` lies in `[0, upper - initial]`.
  have stepAtMost := Int.ediv_mul_le (upper.toInt - initial.toInt) (Int.ne_of_gt positive)
  have stepNonneg : 0 ≤ (upper.toInt - initial.toInt) / increment.toInt * increment.toInt :=
    Int.mul_nonneg (Int.ediv_nonneg (by omega) (Int.le_of_lt positive)) (Int.le_of_lt positive)
  have step : ((upper.toInt64 - initial.toInt64) / increment.toInt64 * increment.toInt64).toInt =
      (upper.toInt - initial.toInt) / increment.toInt * increment.toInt := by
    rw [Int64.toInt_mul_of_bounds] <;> simp only [quotient, Int32.toInt_toInt64] <;> omega
  have sum : (initial.toInt64 + (upper.toInt64 - initial.toInt64) / increment.toInt64 *
      increment.toInt64).toInt =
      initial.toInt + (upper.toInt - initial.toInt) / increment.toInt * increment.toInt := by
    rw [Int64.toInt_add_of_bounds] <;> simp only [step, Int32.toInt_toInt64] <;> omega
  rw [Int64.toInt_toInt32_of_bounds] <;> omega

/-- No `int` at most the range's upper bound is above the `upper` that
`Narrow` computes from that bound. -/
theorem le_upper_of_le_valueIn (valid : ValidValues value) {upper_bound : ValueBound}
    {t : Int} (isInt : t < 2 ^ 31) (le : t ≤ upper_bound.valueIn value) :
    t ≤ (if upper_bound.IsConstant then upper_bound.constant_
      else if upper_bound.IsRelatedToArrayLength && upper_bound.constant_ ≤ 0 then
        Int32.maxValue + upper_bound.constant_
      else Int32.maxValue).toInt := by
  have constantAbove := Int32.le_toInt upper_bound.constant_
  split_ifs with constant array
  · rwa [ValueBound.valueIn_of_IsConstant constant] at le
  · simp only [Bool.and_eq_true, decide_eq_true_eq, Int32.le_iff_toInt_le,
      Int32.toInt_zero] at array
    have length := ValueBound.valueIn_of_IsRelatedToArrayLength valid array.1
    rw [Int32.toInt_add_of_bounds] <;> rw [Int32.toInt_maxValue] <;> omega
  · rw [Int32.toInt_maxValue]
    omega

/-- No term of a sequence from a constant that is at most `upper` is above
the `last_num_in_sequence` of `Narrow`. -/
theorem le_last_num_in_sequence {initial_constant upper increment : Int32}
    (positive : 0 < increment.toInt) (k : Nat)
    (le : initial_constant.toInt + k * increment.toInt ≤ upper.toInt) :
    initial_constant.toInt + k * increment.toInt ≤
      (if upper ≤ initial_constant then upper
        else (initial_constant.toInt64 + (upper.toInt64 - initial_constant.toInt64) /
          increment.toInt64 * increment.toInt64).toInt32).toInt := by
  split_ifs with reached
  · exact le
  · rw [Int32.le_iff_toInt_le, Int.not_le] at reached
    rw [last_num_in_sequence_toInt positive reached]
    -- `k` increments fit below `upper`, so `k` is at most the quotient.
    have steps : (k : Int) ≤ (upper.toInt - initial_constant.toInt) / increment.toInt :=
      (Int.le_ediv_iff_mul_le positive).mpr (by omega)
    have := Int.mul_le_mul_of_nonneg_right steps (Int.le_of_lt positive)
    omega

/-- A term of an increasing sequence in the range lies in the narrowed range,
and adding the increment to it does not overflow. -/
theorem MonotonicValueRange.Narrow_increasing (valid : ValidValues value)
    {this : MonotonicValueRange} {range result : ValueRange}
    (positive : this.increment_ > 0) (narrowed : this.Narrow range = some result)
    (bounded : this.bound_.valueIn value ≤ value this.initial_) (k : Nat)
    (isInt : value this.initial_ + k * this.increment_.toInt < 2 ^ 31)
    (contains : range.Contains value (value this.initial_ + k * this.increment_.toInt)) :
    result.Contains value (value this.initial_ + k * this.increment_.toInt) ∧
      value this.initial_ + k * this.increment_.toInt + this.increment_.toInt < 2 ^ 31 := by
  have positiveInt : 0 < this.increment_.toInt := by
    rwa [gt_iff_lt, Int32.lt_iff_toInt_lt, Int32.toInt_zero] at positive
  have advanced : 0 ≤ (k : Int) * this.increment_.toInt :=
    Int.mul_nonneg (Int.natCast_nonneg k) (Int.le_of_lt positiveInt)
  unfold MonotonicValueRange.Narrow at narrowed
  rw [if_pos positive] at narrowed
  dsimp only at narrowed
  split at narrowed
  next => cases narrowed
  next =>
    obtain ⟨fits, narrowed⟩ := Option.ite_none_right_eq_some.mp narrowed
    obtain rfl := Option.some.inj narrowed
    have upperLe := le_upper_of_le_valueIn valid isInt contains.2
    have lowerLe : (ValueBound.NarrowLowerBound this.bound_ range.lower_).valueIn value ≤
        value this.initial_ + k * this.increment_.toInt := by
      have aboveLower := contains.1
      rcases ValueBound.NarrowLowerBound_eq_or this.bound_ range.lower_ with lower | lower <;>
        rw [lower] <;> omega
    refine ⟨⟨lowerLe, contains.2⟩, ?_⟩
    have fits := Int32.le_iff_toInt_le.mp fits
    rw [maxValue_sub_toInt (Int.le_of_lt positiveInt)] at fits
    -- The term is at most `last_num_in_sequence`, whichever way it was found.
    split at fits
    next initial_constant kind =>
      rw [(valid this.initial_).2.1 initial_constant kind] at upperLe ⊢
      have lastLe := le_last_num_in_sequence positiveInt k upperLe
      omega
    next => omega

/-- A term of a decreasing sequence in the range lies in the narrowed range,
and adding the increment to it does not underflow. -/
theorem MonotonicValueRange.Narrow_decreasing {this : MonotonicValueRange}
    {range result : ValueRange}
    (nonpositive : ¬this.increment_ > 0) (narrowed : this.Narrow range = some result)
    (bounded : value this.initial_ ≤ this.bound_.valueIn value) (k : Nat)
    (contains : range.Contains value (value this.initial_ + k * this.increment_.toInt)) :
    result.Contains value (value this.initial_ + k * this.increment_.toInt) ∧
      -2 ^ 31 ≤ value this.initial_ + k * this.increment_.toInt + this.increment_.toInt := by
  have nonpositiveInt : this.increment_.toInt ≤ 0 := by
    rwa [gt_iff_lt, Int32.lt_iff_toInt_lt, Int32.toInt_zero, Int.not_lt] at nonpositive
  have receded : (k : Int) * this.increment_.toInt ≤ 0 :=
    Int.mul_nonpos_of_nonneg_of_nonpos (Int.natCast_nonneg k) nonpositiveInt
  unfold MonotonicValueRange.Narrow at narrowed
  rw [if_neg nonpositive] at narrowed
  dsimp only at narrowed
  split at narrowed
  next => cases narrowed
  next =>
    split at narrowed
    next constant =>
      obtain ⟨fits, narrowed⟩ := Option.ite_none_right_eq_some.mp narrowed
      obtain rfl := Option.some.inj narrowed
      have fits := Int32.le_iff_toInt_le.mp fits
      rw [minValue_sub_toInt nonpositiveInt] at fits
      have lowerValue : range.lower_.valueIn value = range.lower_.constant_.toInt :=
        ValueBound.valueIn_of_IsConstant constant
      have aboveLower := contains.1
      have upperGe : value this.initial_ + k * this.increment_.toInt ≤
          (ValueBound.NarrowUpperBound this.bound_ range.upper_).valueIn value := by
        have belowUpper := contains.2
        rcases ValueBound.NarrowUpperBound_eq_or this.bound_ range.upper_ with upper | upper <;>
          rw [upper] <;> omega
      exact ⟨⟨aboveLower, upperGe⟩, by omega⟩
    next => cases narrowed

/-- A term of the sequence that is an `int` and lies in the range lies in the
narrowed range, and adding the increment to it does not wrap. -/
theorem MonotonicValueRange.Narrow_contains_term (valid : ValidValues value)
    {this : MonotonicValueRange} {range result : ValueRange}
    (narrowed : this.Narrow range = some result) (bounded : this.BoundsInitial value) (k : Nat)
    (isInt : -2 ^ 31 ≤ value this.initial_ + k * this.increment_.toInt ∧
      value this.initial_ + k * this.increment_.toInt < 2 ^ 31)
    (contains : range.Contains value (value this.initial_ + k * this.increment_.toInt)) :
    result.Contains value (value this.initial_ + k * this.increment_.toInt) ∧
      -2 ^ 31 ≤ value this.initial_ + k * this.increment_.toInt + this.increment_.toInt ∧
      value this.initial_ + k * this.increment_.toInt + this.increment_.toInt < 2 ^ 31 := by
  unfold MonotonicValueRange.BoundsInitial at bounded
  -- The direction of the sequence decides which side can wrap.
  by_cases positive : this.increment_ > 0
  · rw [if_pos positive] at bounded
    have positiveInt : 0 < this.increment_.toInt := by
      rwa [gt_iff_lt, Int32.lt_iff_toInt_lt, Int32.toInt_zero] at positive
    obtain ⟨inRange, below⟩ :=
      MonotonicValueRange.Narrow_increasing valid positive narrowed bounded k isInt.2 contains
    exact ⟨inRange, by omega, below⟩
  · rw [if_neg positive] at bounded
    have nonpositiveInt : this.increment_.toInt ≤ 0 := by
      rwa [gt_iff_lt, Int32.lt_iff_toInt_lt, Int32.toInt_zero, Int.not_lt] at positive
    obtain ⟨inRange, above⟩ :=
      MonotonicValueRange.Narrow_decreasing positive narrowed bounded k contains
    exact ⟨inRange, above, by omega⟩

theorem MonotonicValueRange.term_bounds (valid : ValidValues value)
    (this : MonotonicValueRange) :
    ∀ k, -2 ^ 31 ≤ this.term value k ∧ this.term value k < 2 ^ 31
  | 0 => (valid this.initial_).1
  | k + 1 => by
    have wrapped := wrap_bounds (w := 32) (this.term value k + this.increment_.toInt)
    simp only [MonotonicValueRange.term]
    omega

/-- While the loop runs, its phi holds the terms `initial_ + k * increment_`
of the sequence over `Int`: no step wrapped. -/
theorem MonotonicValueRange.term_eq_of_looping (valid : ValidValues value)
    {this : MonotonicValueRange} {range result : ValueRange}
    (narrowed : this.Narrow range = some result) (bounded : this.BoundsInitial value) :
    ∀ k, (∀ j ≤ k, range.Contains value (this.term value j)) →
      this.term value k = value this.initial_ + k * this.increment_.toInt
  | 0, _ => by
    simp only [MonotonicValueRange.term]
    omega
  | k + 1, looping => by
    have previous := MonotonicValueRange.term_eq_of_looping valid narrowed bounded k
      fun j le => looping j (by omega)
    have termInt := this.term_bounds valid k
    have termContained := looping k (by omega)
    rw [previous] at termInt termContained
    have step := MonotonicValueRange.Narrow_contains_term valid narrowed bounded k termInt
      termContained
    rw [MonotonicValueRange.term, previous, wrap_of_bounds (by decide) (by omega) (by omega)]
    rw [Int.natCast_add, Int.add_mul]
    omega

/-- `Narrow` is sound for the loop it describes: while the loop runs, each
value of its phi lies in the narrowed range, and adding the increment to it
does not wrap. -/
theorem MonotonicValueRange.Narrow_sound (valid : ValidValues value)
    {this : MonotonicValueRange} {range result : ValueRange}
    (narrowed : this.Narrow range = some result) (bounded : this.BoundsInitial value) (k : Nat)
    (looping : ∀ j ≤ k, range.Contains value (this.term value j)) :
    result.Contains value (this.term value k) ∧
      -2 ^ 31 ≤ this.term value k + this.increment_.toInt ∧
      this.term value k + this.increment_.toInt < 2 ^ 31 := by
  have termInt := this.term_bounds valid k
  have termContained := looping k (Nat.le_refl k)
  rw [this.term_eq_of_looping valid narrowed bounded k looping] at termInt termContained ⊢
  exact this.Narrow_contains_term valid narrowed bounded k termInt termContained

end Narrow

end ArtRuntime.BoundsCheckElimination
