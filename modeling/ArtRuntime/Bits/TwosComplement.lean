import Mathlib

namespace ArtRuntime.TwosComplement

/-!
# Two's complement registers over `Int`

C++ code that computes on `intN_t` is modelled on unbounded integers: a signed
`w`-bit value is an `Int` in `[-2 ^ (w - 1), 2 ^ (w - 1))`.  An operation
computes its exact result and `wrap` reduces it as the register does (signed
overflow is taken to wrap, which is what the compiled code does on every
target); `asUnsigned` is `static_cast<uintN_t>`, and the bitwise operators act
on the representations.

The lemmas read each of these through `BitVec`: `wrap` is the signed reading
`BitVec.toInt` of `BitVec.ofInt`, and `asUnsigned` its unsigned reading.
Nothing here names the runtime.
-/

/-- The value a `w`-bit signed register holds after an operation whose exact
result is `value`. -/
def wrap (w : Nat) (value : Int) : Int :=
  value.bmod (2 ^ w)

/-- `static_cast<uintN_t>` of a signed value: its `w`-bit representation. -/
def asUnsigned (w : Nat) (value : Int) : Nat :=
  (value % 2 ^ w).toNat

/-- A bitwise operator on two signed values, applied to their representations. -/
def bitwise (w : Nat) (op : Nat → Nat → Nat) (x y : Int) : Int :=
  wrap w (op (asUnsigned w x) (asUnsigned w y))

/-- `~x` on a signed value: every bit of its representation flipped. -/
def complement (w : Nat) (x : Int) : Int :=
  wrap w (2 ^ w - 1 - asUnsigned w x : Nat)

section Readings

variable {w : Nat}

theorem wrap_eq_toInt_ofInt (value : Int) :
    wrap w value = (BitVec.ofInt w value).toInt :=
  (BitVec.toInt_ofInt value).symm

theorem asUnsigned_eq_toNat_ofInt (value : Int) :
    asUnsigned w value = (BitVec.ofInt w value).toNat := by
  rw [asUnsigned, BitVec.toNat_ofInt]
  norm_cast

@[simp] theorem wrap_toInt (x : BitVec w) : wrap w x.toInt = x.toInt := by
  rw [wrap_eq_toInt_ofInt, BitVec.ofInt_toInt]

@[simp] theorem asUnsigned_toInt (x : BitVec w) : asUnsigned w x.toInt = x.toNat := by
  rw [asUnsigned_eq_toNat_ofInt, BitVec.ofInt_toInt]

/-- The signed reading of a representation. -/
theorem wrap_toNat (x : BitVec w) : wrap w x.toNat = x.toInt :=
  (BitVec.toInt_eq_toNat_bmod x).symm

theorem asUnsigned_wrap (value : Int) : asUnsigned w (wrap w value) = asUnsigned w value := by
  rw [asUnsigned_eq_toNat_ofInt, wrap_eq_toInt_ofInt, BitVec.ofInt_toInt,
    asUnsigned_eq_toNat_ofInt]

/-- A value in the signed range is its own reduction. -/
theorem wrap_of_bounds
    (positive : 0 < w)
    {value : Int}
    (lower : -2 ^ (w - 1) ≤ value)
    (upper : value < 2 ^ (w - 1)) :
    wrap w value = value := by
  rw [wrap_eq_toInt_ofInt, BitVec.toInt_ofInt_eq_self positive lower upper]

/-- Every reduction lies in the signed range. -/
theorem wrap_bounds (value : Int) :
    -2 ^ (w - 1) ≤ wrap w value ∧ wrap w value < 2 ^ (w - 1) := by
  rw [wrap_eq_toInt_ofInt]
  exact ⟨BitVec.le_toInt _, BitVec.toInt_lt⟩

theorem bitwise_toInt (op : Nat → Nat → Nat) (x y : BitVec w) :
    bitwise w op x.toInt y.toInt = wrap w (op x.toNat y.toNat) := by
  rw [bitwise, asUnsigned_toInt, asUnsigned_toInt]

/-- The representation of a natural number below `2 ^ w` is the number. -/
theorem asUnsigned_natCast_of_lt {value : Nat} (bounded : value < 2 ^ w) :
    asUnsigned w value = value := by
  rw [asUnsigned_eq_toNat_ofInt, BitVec.ofInt_natCast, BitVec.toNat_ofNat,
    Nat.mod_eq_of_lt bounded]

theorem complement_toInt (x : BitVec w) : complement w x.toInt = (~~~x).toInt := by
  rw [complement, asUnsigned_toInt, ← BitVec.toNat_not, wrap_toNat]

/-- `value << shift` on a signed register: the representation of `x <<< shift`. -/
theorem ofInt_mul_two_pow (x : BitVec w) (shift : Nat) :
    BitVec.ofInt w (x.toInt * 2 ^ shift) = x <<< shift := by
  rw [BitVec.ofInt_mul, BitVec.ofInt_toInt, BitVec.shiftLeft_eq_mul_twoPow]
  congr 1
  apply BitVec.eq_of_toNat_eq
  rw [BitVec.toNat_twoPow, BitVec.toNat_ofInt]
  norm_cast

theorem wrap_mul_two_pow (x : BitVec w) (shift : Nat) :
    wrap w (x.toInt * 2 ^ shift) = (x <<< shift).toInt := by
  rw [wrap_eq_toInt_ofInt, ofInt_mul_two_pow]

theorem asUnsigned_mul_two_pow (x : BitVec w) (shift : Nat) :
    asUnsigned w (x.toInt * 2 ^ shift) = (x <<< shift).toNat := by
  rw [asUnsigned_eq_toNat_ofInt, ofInt_mul_two_pow]

/-- A rotation right by the complementary distance is the rotation left. -/
theorem rotateRight_sub_eq_rotateLeft (x : BitVec w) {r : Nat} (below : r < w) :
    x.rotateRight ((w - r) % w) = x.rotateLeft r := by
  by_cases zero : r = 0
  · subst zero
    have nothingLeft : x >>> w = 0 := BitVec.ushiftRight_eq_zero (Nat.le_refl w)
    simp [BitVec.rotateRight_def, BitVec.rotateLeft_def, nothingLeft]
  · rw [Nat.mod_eq_of_lt (by omega), BitVec.rotateRight_def, BitVec.rotateLeft_def,
      Nat.mod_eq_of_lt below, Nat.mod_eq_of_lt (by omega), BitVec.or_comm]
    congr 2
    omega

/-- A representation read back from a signed value is the value's. -/
theorem asUnsigned_toInt_ofInt (value : Int) :
    asUnsigned w (BitVec.ofInt w value).toInt = asUnsigned w value := by
  rw [asUnsigned_toInt, asUnsigned_eq_toNat_ofInt]

/-- A wider register keeps the low bits a narrower one reads. -/
theorem asUnsigned_wrap_of_le {k : Nat} (le : k ≤ w) (value : Int) :
    asUnsigned k (wrap w value) = asUnsigned k value := by
  have divides : (2 : Int) ^ k ∣ 2 ^ w := by exact_mod_cast Nat.pow_dvd_pow 2 le
  have reduced : value.bmod (2 ^ w) % 2 ^ w = value % 2 ^ w := by
    have congruent := Int.bmod_emod (x := value) (m := 2 ^ w)
    push_cast at congruent
    exact congruent
  rw [asUnsigned, asUnsigned, wrap, ← Int.emod_emod_of_dvd _ divides, reduced,
    Int.emod_emod_of_dvd _ divides]

theorem wrap_mul_two_pow_ofInt (value : Int) (shift : Nat) :
    wrap w (value * 2 ^ shift) = (BitVec.ofInt w value <<< shift).toInt := by
  rw [← wrap_mul_two_pow, wrap_eq_toInt_ofInt, wrap_eq_toInt_ofInt, BitVec.ofInt_mul,
    BitVec.ofInt_mul, BitVec.ofInt_toInt]

/-- The two halves of a rotation have no bit in common. -/
theorem ushiftRight_and_shiftLeft_eq_zero (x : BitVec w) {r : Nat} (below : r < w) :
    (x >>> r) &&& (x <<< (w - r)) = 0 := by
  ext i inside
  simp only [BitVec.getElem_and, BitVec.getElem_ushiftRight, BitVec.getElem_shiftLeft]
  grind

/-- Two distances below the width that add up to a multiple of it add up to
`0` or to the width. -/
theorem add_eq_zero_or_width_of_mod_eq_zero {r s : Nat} (rBelow : r < w) (sBelow : s < w)
    (multiple : (r + s) % w = 0) : r + s = 0 ∨ r + s = w := by
  have split := Nat.div_add_mod (r + s) w
  have fewQuotients : (r + s) / w < 2 := by
    apply Nat.div_lt_of_lt_mul
    omega
  rw [multiple, Nat.add_zero] at split
  generalize (r + s) / w = quotient at split fewQuotients
  obtain none | once : quotient = 0 ∨ quotient = 1 := by omega
  · rw [none, Nat.mul_zero] at split
    exact Or.inl split.symm
  · rw [once, Nat.mul_one] at split
    exact Or.inr split.symm

/-- Shifts right by `r` and left by `s`, with `r + s` a multiple of the width,
`|`-ed: the rotation right by `r`, also at `r = 0`, where both shifts are the
value itself. -/
theorem ushiftRight_or_shiftLeft_eq_rotateRight (x : BitVec w) {r s : Nat} (rBelow : r < w)
    (sBelow : s < w) (multiple : (r + s) % w = 0) :
    x >>> r ||| x <<< s = x.rotateRight r := by
  by_cases zero : r = 0
  · have sZero : s = 0 := by
      subst zero
      rwa [Nat.zero_add, Nat.mod_eq_of_lt sBelow] at multiple
    subst zero sZero
    simp [BitVec.rotateRight_def]
  · have complementary : s = w - r := by
      have sum := add_eq_zero_or_width_of_mod_eq_zero rBelow sBelow multiple
      omega
    rw [complementary, BitVec.rotateRight_def, Nat.mod_eq_of_lt rBelow]

/-- Shifts right by `r` and left by `s` that add up to the width have
disjoint bits. -/
theorem ushiftRight_and_shiftLeft_eq_zero_of_mod (x : BitVec w) {r s : Nat} (rBelow : r < w)
    (sBelow : s < w) (multiple : (r + s) % w = 0) (nonzero : r ≠ 0) :
    (x >>> r) &&& (x <<< s) = 0 := by
  have complementary : s = w - r := by
    have sum := add_eq_zero_or_width_of_mod_eq_zero rBelow sBelow multiple
    omega
  rw [complementary]
  exact ushiftRight_and_shiftLeft_eq_zero x rBelow

/-- On values with disjoint bits `^` is `|`. -/
theorem xor_eq_or_of_and_eq_zero {x y : BitVec w} (disjoint : x &&& y = 0) :
    x ^^^ y = x ||| y := by
  ext i inside
  have bit := congrArg (fun z : BitVec w => z[i]) disjoint
  simp only [BitVec.getElem_and] at bit
  simp only [BitVec.getElem_xor, BitVec.getElem_or]
  grind

end Readings

section Int32

/-!
## `Int32` sums that stay in range
-/

variable {a b : Int32}

theorem Int32.toInt_add_of_bounds
    (lower : -2 ^ 31 ≤ a.toInt + b.toInt)
    (upper : a.toInt + b.toInt < 2 ^ 31) :
    (a + b).toInt = a.toInt + b.toInt := by
  rw [Int32.toInt_add]
  exact Int.bmod_eq_of_le (by omega) (by omega)

theorem Int32.toInt_sub_of_bounds
    (lower : -2 ^ 31 ≤ a.toInt - b.toInt)
    (upper : a.toInt - b.toInt < 2 ^ 31) :
    (a - b).toInt = a.toInt - b.toInt := by
  rw [Int32.toInt_sub]
  exact Int.bmod_eq_of_le (by omega) (by omega)

end Int32

section Int64

/-!
## `Int64` arithmetic that stays in range
-/

variable {a b : Int64}

theorem Int64.toInt_add_of_bounds
    (lower : -2 ^ 63 ≤ a.toInt + b.toInt)
    (upper : a.toInt + b.toInt < 2 ^ 63) :
    (a + b).toInt = a.toInt + b.toInt := by
  rw [Int64.toInt_add]
  exact Int.bmod_eq_of_le (by omega) (by omega)

theorem Int64.toInt_sub_of_bounds
    (lower : -2 ^ 63 ≤ a.toInt - b.toInt)
    (upper : a.toInt - b.toInt < 2 ^ 63) :
    (a - b).toInt = a.toInt - b.toInt := by
  rw [Int64.toInt_sub]
  exact Int.bmod_eq_of_le (by omega) (by omega)

theorem Int64.toInt_mul_of_bounds
    (lower : -2 ^ 63 ≤ a.toInt * b.toInt)
    (upper : a.toInt * b.toInt < 2 ^ 63) :
    (a * b).toInt = a.toInt * b.toInt := by
  rw [Int64.toInt_mul]
  exact Int.bmod_eq_of_le (by omega) (by omega)

/-- Of a non-negative dividend and a positive divisor, the truncating `/` is
the floor division of `Int`. -/
theorem Int64.toInt_div_of_nonneg (nonneg : 0 ≤ a.toInt) (positive : 0 < b.toInt) :
    (a / b).toInt = a.toInt / b.toInt := by
  have below := Int64.toInt_lt a
  have atMost := Int.ediv_le_self b.toInt nonneg
  have quotientNonneg := Int.ediv_nonneg nonneg (Int.le_of_lt positive)
  rw [Int64.toInt_div, Int.tdiv_eq_ediv_of_nonneg nonneg]
  exact Int.bmod_eq_of_le (by omega) (by omega)

theorem Int64.toInt_toInt32_of_bounds
    (lower : -2 ^ 31 ≤ a.toInt) (upper : a.toInt < 2 ^ 31) :
    a.toInt32.toInt = a.toInt := by
  rw [Int64.toInt_toInt32]
  exact Int.bmod_eq_of_le (by omega) (by omega)

end Int64

end ArtRuntime.TwosComplement
