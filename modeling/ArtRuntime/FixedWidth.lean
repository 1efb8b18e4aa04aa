import Mathlib

namespace ArtRuntime.FixedWidth

/-!
# Fixed-width machine integers over `Int`

C++ `uint32_t` and `int32_t` arithmetic is modelled on unbounded integers with
an explicit reduction after each operation: `truncU32` is the unsigned value
of the low 32 bits and `toInt32` their two's complement reading.  Signed
overflow is taken to wrap, which is what the compiled code does on every
target.

Nothing in this module names the runtime; the lemmas are the arithmetic that
the code-item and payload models use at their own types.
-/

/-- The `uint32_t` value of an integer: its residue modulo `2 ^ 32`. -/
def truncU32 (value : Int) : Nat :=
  (value % 2 ^ 32).toNat

/-- The `size_t` (and `uintptr_t`) value of an integer: its residue modulo
`2 ^ 64`. -/
def truncU64 (value : Int) : Nat :=
  (value % 2 ^ 64).toNat

/-- The `int32_t` value of an integer: the two's complement reading of its
low 32 bits.  The sign test is on the unsigned value, a `Nat` comparison, so
that deciding it never unfolds an `Int` literal. -/
def toInt32 (value : Int) : Int :=
  if truncU32 value < 2 ^ 31 then truncU32 value else (truncU32 value : Int) - 2 ^ 32

/-- Little-endian composition of a 32-bit word from two 16-bit halves. -/
def word32 (low high : Nat) : Nat :=
  low + high * 2 ^ 16

@[simp] theorem truncU32_lt (value : Int) :
    truncU32 value < 2 ^ 32 := by
  unfold truncU32
  omega

/-- The unsigned reduction of an integer is congruent to it. -/
theorem truncU32_emod (value : Int) :
    (truncU32 value : Int) = value % 2 ^ 32 := by
  unfold truncU32
  omega

/-- Values already in `[0, 2 ^ 32)` are unchanged by the unsigned reduction. -/
theorem truncU32_of_lt
    {value : Int}
    (nonneg : 0 ≤ value)
    (bounded : value < 2 ^ 32) :
    (truncU32 value : Int) = value := by
  rw [truncU32_emod]
  exact Int.emod_eq_of_lt nonneg bounded

@[simp] theorem truncU32_natCast_of_lt
    {value : Nat}
    (bounded : value < 2 ^ 32) :
    truncU32 value = value := by
  have reduced : (truncU32 value : Int) = value :=
    truncU32_of_lt (Int.natCast_nonneg value) (by omega)
  omega

/-- The unsigned reduction only depends on the residue modulo `2 ^ 32`. -/
theorem truncU32_congr
    {first second : Int}
    (congruent : first % 2 ^ 32 = second % 2 ^ 32) :
    truncU32 first = truncU32 second := by
  unfold truncU32
  rw [congruent]

/-- Values already in `[0, 2 ^ 64)` are unchanged by the 64-bit reduction. -/
theorem truncU64_of_lt
    {value : Int}
    (nonneg : 0 ≤ value)
    (bounded : value < 2 ^ 64) :
    (truncU64 value : Int) = value := by
  unfold truncU64
  rw [Int.emod_eq_of_lt nonneg bounded]
  exact Int.toNat_of_nonneg nonneg

theorem toInt32_bounds (value : Int) :
    -2 ^ 31 ≤ toInt32 value ∧ toInt32 value < 2 ^ 31 := by
  unfold toInt32 truncU32
  split <;> omega

/-- The signed reading is congruent to the integer it reads. -/
theorem toInt32_emod (value : Int) :
    toInt32 value % 2 ^ 32 = value % 2 ^ 32 := by
  unfold toInt32 truncU32
  split <;> omega

/-- Integers in the `int32_t` range are their own signed reading. -/
theorem toInt32_of_bounds
    {value : Int}
    (lower : -2 ^ 31 ≤ value)
    (upper : value < 2 ^ 31) :
    toInt32 value = value := by
  unfold toInt32 truncU32
  split <;> omega

/-- The signed reading only depends on the residue modulo `2 ^ 32`. -/
theorem toInt32_congr
    {first second : Int}
    (congruent : first % 2 ^ 32 = second % 2 ^ 32) :
    toInt32 first = toInt32 second := by
  unfold toInt32
  rw [truncU32_congr congruent]

/-- A non-negative signed reading is the unsigned one. -/
theorem toInt32_nonneg_iff (value : Int) :
    0 ≤ toInt32 value ↔ value % 2 ^ 32 < 2 ^ 31 := by
  unfold toInt32 truncU32
  split <;> omega

/-- Adding a signed reading is the same, modulo `2 ^ 32`, as adding the value. -/
theorem add_toInt32_emod (base value : Int) :
    (base + toInt32 value) % 2 ^ 32 = (base + value) % 2 ^ 32 := by
  have congruent := toInt32_emod value
  omega

/-- The C++ expression `low | (high << 16)` on two 16-bit halves. -/
theorem or_shiftLeft_sixteen
    {low : Nat}
    (lowBound : low < 2 ^ 16)
    (high : Nat) :
    (low ||| high <<< 16) = word32 low high := by
  rw [Nat.or_comm, ← Nat.shiftLeft_add_eq_or_of_lt lowBound, Nat.shiftLeft_eq,
    word32]
  omega

/-- An `|` of a multiple of `2 ^ k` and a number below `2 ^ k` is their sum. -/
theorem or_eq_add_of_lt
    {low k : Nat}
    (lowBound : low < 2 ^ k)
    (high : Nat) :
    (high * 2 ^ k ||| low) = high * 2 ^ k + low := by
  rw [Nat.mul_comm, Nat.two_pow_add_eq_or_of_lt lowBound]

/-- The same with the payload first, as in `(ch >> 6) | 0xc0`. -/
theorem or_lead_eq_add
    {low k : Nat}
    (lowBound : low < 2 ^ k)
    (high : Nat) :
    (low ||| high * 2 ^ k) = high * 2 ^ k + low := by
  rw [Nat.or_comm, or_eq_add_of_lt lowBound]

/-- An `|` of a multiple of `2 ^ k` and a number below `2 ^ k` is their sum,
with the multiple as it stands. -/
theorem or_eq_add_of_mod_eq_zero
    {high low k : Nat}
    (aligned : high % 2 ^ k = 0)
    (lowBound : low < 2 ^ k) :
    (high ||| low) = high + low := by
  have split := or_eq_add_of_lt lowBound (high / 2 ^ k)
  rwa [Nat.div_mul_cancel (Nat.dvd_of_mod_eq_zero aligned)] at split

theorem word32_lt
    {low high : Nat}
    (lowBound : low < 2 ^ 16)
    (highBound : high < 2 ^ 16) :
    word32 low high < 2 ^ 32 := by
  unfold word32
  omega

/-- An `&` with `m` one bits from bit `k` on keeps those bits of `n` in place:
the C++ idiom `(x & 0xfc00) == 0xd800` is a test on `x / 2 ^ 10`. -/
theorem and_mask_eq
    (n k m : Nat) :
    (n &&& (2 ^ m - 1) * 2 ^ k) = n / 2 ^ k % 2 ^ m * 2 ^ k := by
  have above : (n &&& (2 ^ m - 1) * 2 ^ k) / 2 ^ k = n / 2 ^ k % 2 ^ m := by
    rw [Nat.and_div_two_pow, Nat.mul_div_cancel _ (Nat.two_pow_pos k),
      Nat.and_two_pow_sub_one_eq_mod]
  have below : (n &&& (2 ^ m - 1) * 2 ^ k) % 2 ^ k = 0 := by
    rw [Nat.and_mod_two_pow, Nat.mul_mod_left, Nat.and_zero]
  calc (n &&& (2 ^ m - 1) * 2 ^ k)
      = (n &&& (2 ^ m - 1) * 2 ^ k) / 2 ^ k * 2 ^ k + (n &&& (2 ^ m - 1) * 2 ^ k) % 2 ^ k :=
        (Nat.div_add_mod' _ _).symm
    _ = n / 2 ^ k % 2 ^ m * 2 ^ k := by rw [above, below, Nat.add_zero]

end ArtRuntime.FixedWidth
