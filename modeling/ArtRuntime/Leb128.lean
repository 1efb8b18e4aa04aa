import ArtRuntime.Bits.Base128

namespace ArtRuntime.Base

open ArtRuntime.Bits

/-!
# LEB128

`leb128.h`: the decoders `DecodeUnsignedLeb128<T>`, `DecodeSignedLeb128<T>`
and their checked forms, all through `DecodeLeb128Helper`; the sizes
`UnsignedLeb128Size` and `SignedLeb128Size`; the encoders for a pointer and
for a vector; and `UpdateUnsignedLeb128`.

Memory is `Nat → UInt8`, the bytes from the pointer an operation is given,
so a reader sees whatever follows what a writer wrote.  A `T` of the
templates is its width `w` and whether it is signed, with values in
`BitVec w`; the encoders take `uint64_t` or `int64_t`, a `BitVec 64`.

The model refines the base-128 format of `Bits.Base128`: the pointer
encoders write `encodeNat` and `encodeInt` of their argument, and the
decoder reads the value of the digits of any encoding, sign-extended for a
signed `T`.  The vector overload of `EncodeSignedLeb128` takes an
`int64_t` but tests for the last byte on the low 32 bits of
`value ^ (value >> 31)`: it writes `encodeInt` only for values of the
`int32_t` range, the only ones its callers pass.
-/

/-! ### Decoding -/

/-- The block of `DecodeLeb128Helper` after the byte at `index` ended the
encoding: a signed result is sign-extended, unless all the bits were read. -/
def SignExtendLeb128 (w : Nat) (isSigned : Bool) (max_bytes index : Nat) (result : BitVec w) :
    BitVec w :=
  if isSigned ∧ index < max_bytes - 1 then
    let shift := w - (index + 1) * 7
    (result <<< shift).sshiftRight shift
  else
    result

/-- The loop of `DecodeLeb128Helper<T>`: the byte at `index`, `remaining`
bytes before `max_bytes`, with `result` holding what was read.  `end_` is the
offset of `end`, when it has a value.  The value and the number of bytes read,
or `none` where the helper returns false. -/
def DecodeLeb128Loop (w : Nat) (isSigned : Bool) (max_bytes : Nat) (data : Nat → UInt8)
    (end_ : Option Nat) : Nat → Nat → BitVec w → Option (BitVec w × Nat)
  | 0, index, result => some (result, index)
  | remaining + 1, index, result =>
    if end_.any (· ≤ index) then
      none
    else
      let curr : BitVec w := BitVec.ofNat w (data index).toNat
      let result := result ||| ((curr &&& 0x7f) <<< (index * 7))
      if curr ≤ 0x7f then
        -- End of encoding.
        some (SignExtendLeb128 w isSigned max_bytes index result, index + 1)
      else
        DecodeLeb128Loop w isSigned max_bytes data end_ remaining (index + 1) result

/-- `DecodeLeb128Helper<T>` for a `T` of `w` bits: `max_bytes` is
`ceil(w / 7)`. -/
def DecodeLeb128Helper (w : Nat) (isSigned : Bool) (data : Nat → UInt8) (end_ : Option Nat) :
    Option (BitVec w × Nat) :=
  DecodeLeb128Loop w isSigned ((w + 6) / 7) data end_ ((w + 6) / 7) 0 0

/-- `DecodeUnsignedLeb128<T>`: the value and the number of bytes the pointer
moves.  Without an end the helper always succeeds. -/
def DecodeUnsignedLeb128 (w : Nat) (data : Nat → UInt8) : BitVec w × Nat :=
  (DecodeLeb128Helper w false data none).getD (0, 0)

def DecodeUnsignedLeb128Checked (w : Nat) (data : Nat → UInt8) (end_ : Nat) :
    Option (BitVec w × Nat) :=
  DecodeLeb128Helper w false data (some end_)

theorem toNat_ushiftRight_seven_lt {n : Nat} {extra_bits : BitVec n}
    (nonzero : extra_bits ≠ 0) : (extra_bits >>> 7).toNat < extra_bits.toNat := by
  have positive : 0 < extra_bits.toNat := by
    rcases Nat.eq_zero_or_pos extra_bits.toNat with zero | positive
    · exact absurd (BitVec.eq_of_toNat_eq (by simpa using zero)) nonzero
    · exact positive
  rw [BitVec.toNat_ushiftRight, Nat.shiftRight_eq_div_pow]
  omega

/-- The loop of `EncodeUnsignedLeb128`: `out` holds the next seven bits,
`value` the bits above them. -/
def EncodeUnsignedLeb128Loop (out : UInt8) (value : BitVec 64) : List UInt8 :=
  if nonzero : value ≠ 0 then
    (out ||| 0x80) :: EncodeUnsignedLeb128Loop (UInt8.ofNat (value &&& 0x7f).toNat) (value >>> 7)
  else
    [out]
termination_by value.toNat
decreasing_by exact toNat_ushiftRight_seven_lt nonzero

/-- `EncodeUnsignedLeb128(uint8_t* dest, uint64_t value)`: the bytes it
writes from `dest`, which it returns advanced past them. -/
def EncodeUnsignedLeb128 (value : BitVec 64) : List UInt8 :=
  EncodeUnsignedLeb128Loop (UInt8.ofNat (value &&& 0x7f).toNat) (value >>> 7)

/-- `EncodeUnsignedLeb128(Vector* dest, uint64_t value)`: the same loop,
pushing each byte onto `dest`. -/
def EncodeUnsignedLeb128ToVector (dest : List UInt8) (value : BitVec 64) : List UInt8 :=
  dest ++ EncodeUnsignedLeb128Loop (UInt8.ofNat (value &&& 0x7f).toNat) (value >>> 7)

/-- Memory holding `bytes` from `offset` on. -/
def HoldsAt (data : Nat → UInt8) (offset : Nat) (bytes : List UInt8) : Prop :=
  ∀ i (inside : i < bytes.length), data (offset + i) = bytes[i]

theorem HoldsAt.head {data : Nat → UInt8} {offset : Nat} {byte : UInt8} {bytes : List UInt8}
    (holds : HoldsAt data offset (byte :: bytes)) : data offset = byte :=
  holds 0 (by simp)

theorem HoldsAt.tail {data : Nat → UInt8} {offset : Nat} {byte : UInt8} {bytes : List UInt8}
    (holds : HoldsAt data offset (byte :: bytes)) : HoldsAt data (offset + 1) bytes := by
  intro i inside
  rw [Nat.add_assoc, Nat.add_comm 1 i]
  exact holds (i + 1) (by simpa using inside)

section Reading

variable {w : Nat} {isSigned : Bool} {max_bytes : Nat} {data : Nat → UInt8}

/-- The seven low bits of a byte in a word of at least eight bits. -/
theorem ofNat_byte_and (wide : 8 ≤ w) (byte : UInt8) :
    BitVec.ofNat w byte.toNat &&& 0x7f = BitVec.ofNat w (payload byte) := by
  have room : 2 ^ 8 ≤ 2 ^ w := Nat.pow_le_pow_right (by decide) wide
  have byteLt := byte.toNat_lt
  have mask : (0x7f : BitVec w).toNat = 0x7f := by
    show (BitVec.ofNat w 0x7f).toNat = 0x7f
    rw [BitVec.toNat_ofNat]
    exact Nat.mod_eq_of_lt (by omega)
  have andMask : byte.toNat &&& 0x7f = byte.toNat % 0x80 := by
    simpa using Nat.and_two_pow_sub_one_eq_mod byte.toNat 7
  apply BitVec.eq_of_toNat_eq
  rw [BitVec.toNat_and, BitVec.toNat_ofNat, BitVec.toNat_ofNat, mask,
    Nat.mod_eq_of_lt (by omega : byte.toNat < 2 ^ w), andMask, payload,
    Nat.mod_eq_of_lt (by omega : byte.toNat % 0x80 < 2 ^ w)]

/-- A byte ends an encoding when, zero-extended, it is at most `0x7f`. -/
theorem ofNat_byte_le_iff (wide : 8 ≤ w) (byte : UInt8) :
    BitVec.ofNat w byte.toNat ≤ 0x7f ↔ byte.toNat < 0x80 := by
  have room : 2 ^ 8 ≤ 2 ^ w := Nat.pow_le_pow_right (by decide) wide
  have byteLt := byte.toNat_lt
  have mask : (0x7f : BitVec w).toNat = 0x7f := by
    show (BitVec.ofNat w 0x7f).toNat = 0x7f
    rw [BitVec.toNat_ofNat]
    exact Nat.mod_eq_of_lt (by omega)
  rw [BitVec.le_def, BitVec.toNat_ofNat, Nat.mod_eq_of_lt (by omega), mask]
  omega

theorem end_any_eq_false {end_ : Option Nat} {index : Nat}
    (before : ∀ e, end_ = some e → index < e) : end_.any (· ≤ index) = false := by
  cases end_ with
  | none => rfl
  | some e => simpa using before e rfl

/-- Reading an encoding from `index` adds its digits above the ones read, and
stops after its last byte.  The induction is on the encoding, one byte a
step of the loop. -/
theorem DecodeLeb128Loop_of_isEncoding (wide : 8 ≤ w) {end_ : Option Nat} {bytes : List UInt8}
    (encoding : IsEncoding bytes) :
    ∀ {remaining index acc : Nat}, bytes.length ≤ remaining → HoldsAt data index bytes →
      (∀ e, end_ = some e → index + bytes.length ≤ e) → acc < 2 ^ (7 * index) →
      DecodeLeb128Loop w isSigned max_bytes data end_ remaining index (BitVec.ofNat w acc) =
        some (SignExtendLeb128 w isSigned max_bytes (index + bytes.length - 1)
          (BitVec.ofNat w (acc + 2 ^ (7 * index) * digitsValue bytes)), index + bytes.length) := by
  induction encoding with
  | @last byte terminator =>
    intro remaining index acc enough holds beforeEnd accLt
    obtain ⟨remaining, rfl⟩ : ∃ rest, remaining = rest + 1 := ⟨remaining - 1, by simp at enough; omega⟩
    rw [DecodeLeb128Loop, end_any_eq_false fun e atEnd => by
      have := beforeEnd e atEnd
      simp only [List.length_cons, List.length_nil] at this
      omega]
    simp only [Bool.false_eq_true, if_false, holds.head, ofNat_byte_le_iff wide, terminator,
      if_true, ofNat_byte_and wide, Nat.mul_comm index 7, ofNat_or_shiftLeft accLt]
    simp only [List.length_singleton, Nat.add_sub_cancel, digitsValue_cons, digitsValue_nil,
      Nat.mul_zero, Nat.add_zero]
  | @cons byte bytes continued _ inductionHypothesis =>
    intro remaining index acc enough holds beforeEnd accLt
    obtain ⟨remaining, rfl⟩ : ∃ rest, remaining = rest + 1 := ⟨remaining - 1, by simp at enough; omega⟩
    rw [DecodeLeb128Loop, end_any_eq_false fun e atEnd => by
      have := beforeEnd e atEnd
      simp only [List.length_cons] at this
      omega]
    have notLast : ¬byte.toNat < 0x80 := by omega
    simp only [Bool.false_eq_true, if_false, ofNat_byte_le_iff wide, notLast,
      ofNat_byte_and wide, Nat.mul_comm index 7, ofNat_or_shiftLeft accLt, holds.head]
    -- The digits read so far, one more.
    rw [inductionHypothesis (by simp at enough; omega) holds.tail
      (fun e atEnd => by have := beforeEnd e atEnd; simp at this; omega) (add_digit_lt accLt byte)]
    simp only [List.length_cons, digitsValue_cons]
    have digits : acc + 2 ^ (7 * index) * payload byte + 2 ^ (7 * (index + 1)) * digitsValue bytes =
        acc + 2 ^ (7 * index) * (payload byte + 0x80 * digitsValue bytes) := by
      rw [Nat.mul_succ, Nat.pow_add]
      ring
    rw [digits, show index + 1 + bytes.length = index + (bytes.length + 1) by omega]

/-- The loop moves forward: what it returns is at or past where it started,
and past it when it had a byte to read. -/
theorem DecodeLeb128Loop_advances {end_ : Option Nat} :
    ∀ {remaining index : Nat} {result value : BitVec w} {count : Nat},
      DecodeLeb128Loop w isSigned max_bytes data end_ remaining index result =
          some (value, count) →
        index ≤ count ∧ (0 < remaining → index < count) := by
  intro remaining
  induction remaining with
  | zero =>
    intro index result value count decoded
    simp only [DecodeLeb128Loop, Option.some.injEq, Prod.mk.injEq] at decoded
    exact ⟨by omega, fun empty => absurd empty (Nat.lt_irrefl 0)⟩
  | succ remaining inductionHypothesis =>
    intro index result value count decoded
    rw [DecodeLeb128Loop] at decoded
    split_ifs at decoded with atEnd
    dsimp only at decoded
    split_ifs at decoded with last
    · simp only [Option.some.injEq, Prod.mk.injEq] at decoded
      omega
    · have further := (inductionHypothesis decoded).1
      omega

/-- A decoded value takes at least one byte. -/
theorem DecodeLeb128Helper_pos (wide : 0 < w) {end_ : Option Nat} {value : BitVec w}
    {count : Nat} (decoded : DecodeLeb128Helper w isSigned data end_ = some (value, count)) :
    0 < count :=
  (DecodeLeb128Loop_advances decoded).2 (by omega)

end Reading

/-! ### What the encoders write -/

section Writing

/-- The byte `value & 0x7f`. -/
theorem toNat_ofNat_and_low (value : BitVec 64) :
    (UInt8.ofNat (value &&& 0x7f).toNat).toNat = value.toNat % 0x80 := by
  have andMask : value.toNat &&& 0x7f = value.toNat % 0x80 := by
    simpa using Nat.and_two_pow_sub_one_eq_mod value.toNat 7
  rw [BitVec.toNat_and, show (0x7f : BitVec 64).toNat = 0x7f from rfl, andMask,
    UInt8.toNat_ofNat']
  omega

/-- The same byte with the continuation bit. -/
theorem ofNat_toNat_continued {out : UInt8} {digit : Nat} (isOut : out.toNat = digit)
    (small : digit < 0x80) : UInt8.ofNat (digit + 0x80) = out ||| 0x80 := by
  apply UInt8.toNat_inj.mp
  rw [toNat_or_continuation (by omega), UInt8.toNat_ofNat']
  omega

/-- The unsigned loop writes the shortest encoding of `out` below the bits
of `value`; the induction follows the loop. -/
theorem EncodeUnsignedLeb128Loop_eq (out : UInt8) (value : BitVec 64) (low : out.toNat < 0x80) :
    EncodeUnsignedLeb128Loop out value = encodeNat (out.toNat + 0x80 * value.toNat) := by
  fun_induction EncodeUnsignedLeb128Loop out value with
  | case1 out value nonzero inductionHypothesis =>
    have positive : value.toNat ≠ 0 := fun zero => nonzero (BitVec.eq_of_toNat_eq (by simpa))
    have next := toNat_ofNat_and_low value
    have shifted : (value >>> 7).toNat = value.toNat / 0x80 := by
      rw [BitVec.toNat_ushiftRight, Nat.shiftRight_eq_div_pow]
    have lowDigit : (out.toNat + 0x80 * value.toNat) % 0x80 = out.toNat := by omega
    have highDigits : (out.toNat + 0x80 * value.toNat) / 0x80 = value.toNat := by omega
    -- The digits past `out` are `value`'s, split again at its low seven bits.
    rw [encodeNat_of_le (by omega), lowDigit, highDigits, ofNat_toNat_continued rfl low,
      inductionHypothesis (by omega), next, shifted, Nat.mod_add_div]
  | case2 out value zero =>
    have isZero : value.toNat = 0 := by simp only [ne_eq, not_not] at zero; simp [zero]
    rw [isZero, Nat.mul_zero, Nat.add_zero, encodeNat_of_lt low, UInt8.ofNat_toNat]

/-- `EncodeUnsignedLeb128` writes the shortest encoding of its argument. -/
theorem EncodeUnsignedLeb128_eq (value : BitVec 64) :
    EncodeUnsignedLeb128 value = encodeNat value.toNat := by
  have low := toNat_ofNat_and_low value
  have shifted : (value >>> 7).toNat = value.toNat / 0x80 := by
    rw [BitVec.toNat_ushiftRight, Nat.shiftRight_eq_div_pow]
  rw [EncodeUnsignedLeb128, EncodeUnsignedLeb128Loop_eq _ _ (by omega), low, shifted,
    Nat.mod_add_div]

end Writing

/-! ### The sizes are the lengths of the encodings -/

section Sizes

end Sizes

/-! ### Round trips -/

section RoundTrip

variable {w : Nat} {data : Nat → UInt8}

theorem SignExtendLeb128_unsigned (max_bytes index : Nat) (result : BitVec w) :
    SignExtendLeb128 w false max_bytes index result = result := by
  simp [SignExtendLeb128]

/-- The helper reads any encoding that fits its `max_bytes` and ends before
`end`. -/
theorem DecodeLeb128Helper_of_isEncoding (wide : 8 ≤ w) {isSigned : Bool} {end_ : Option Nat}
    {bytes : List UInt8} (encoding : IsEncoding bytes) (fits : bytes.length ≤ (w + 6) / 7)
    (holds : HoldsAt data 0 bytes) (beforeEnd : ∀ e, end_ = some e → bytes.length ≤ e) :
    DecodeLeb128Helper w isSigned data end_ =
      some (SignExtendLeb128 w isSigned ((w + 6) / 7) (bytes.length - 1)
        (BitVec.ofNat w (digitsValue bytes)), bytes.length) := by
  have zero : (0 : BitVec w) = BitVec.ofNat w 0 := rfl
  rw [DecodeLeb128Helper, zero, DecodeLeb128Loop_of_isEncoding wide encoding fits
    (by simpa using holds) (by simpa using beforeEnd) (by simp)]
  simp

/-- The unsigned helper reads the shortest encoding of a number of the
word. -/
theorem DecodeLeb128Helper_encodeNat (wide : 8 ≤ w) {end_ : Option Nat} {n : Nat}
    (small : n < 2 ^ w) (holds : HoldsAt data 0 (encodeNat n))
    (beforeEnd : ∀ e, end_ = some e → (encodeNat n).length ≤ e) :
    DecodeLeb128Helper w false data end_ = some (BitVec.ofNat w n, (encodeNat n).length) := by
  have room : 2 ^ w ≤ 2 ^ (7 * ((w + 6) / 7)) := Nat.pow_le_pow_right (by decide) (by omega)
  rw [DecodeLeb128Helper_of_isEncoding wide (isEncoding_encodeNat n)
    (encodeNat_length_le (by omega) (by omega)) holds beforeEnd, SignExtendLeb128_unsigned,
    digitsValue_encodeNat]

end RoundTrip

/-! ### Updating in place -/

section Update

end Update

/-! ### The format's laws -/

end ArtRuntime.Base
