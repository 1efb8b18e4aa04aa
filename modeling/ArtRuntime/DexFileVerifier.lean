import Mathlib.Data.List.Chain
import ArtRuntime.DexFile
import ArtRuntime.DescriptorsNames

namespace ArtRuntime.Dex

/-!
# The verifier's checks of the id tables

`dex_file_verifier.cc`: the checks of `DexFileVerifier::Verify` that the
lookups of `DexFile` rest on.

* `CheckHeader` limits the type and proto ids to `0xffff` each.
* `CheckIntraSection` checks each item of the id sections where it lies
  (`CheckListSize` and the index checks of `CheckIntraTypeIdItem` and the
  others) and each string data item (`CheckIntraStringDataItem`).
* `CheckInterSection` first checks that every string id points to a string
  data item, then walks each id section with `previous_item_`, checking the
  descriptors and names an item refers to and its order after the previous one.

`VerifyIdSections` runs these checks; the full verifier runs them and more, so
every file it accepts passes `VerifyIdSections`.  What is left out is listed
beside each definition: the cache of verified type descriptors, which only
memoises `IsValidDescriptor`, and the map bookkeeping of `offset_to_type_map_`,
which `VerifyIdSections` replaces by checking the string data at each string
id's offset.

The main result, `lookups_exact`, says that every lookup of `DexFile` finds
exactly the entry with its key in a file these checks accept.
-/

open FixedWidth Search

/-! ### Messages -/

/-- `%x`. -/
def hex (value : Nat) : String :=
  String.ofList (Nat.toDigits 16 value)

namespace DexFileVerifier

/-! ### Index and size checks -/

variable (dex : DexFile)

end DexFileVerifier

/-! ### String data -/

namespace DexFileVerifier

/-- The loop of `CheckIntraStringDataItem` over the characters the ULEB128
`size` announces: `count` of them still to read, and `available_bytes` left
after one byte was set aside for each.  A character's further bytes are taken
from `available_bytes`. -/
def CheckIntraStringDataItemLoop (size : UInt32) :
    Nat → List UInt8 → Nat → Except String (List UInt8 × Nat)
  | 0, ptr, available_bytes => pure (ptr, available_bytes)
  | count + 1, ptr, available_bytes =>
    let byte := (nextByte ptr).1
    let ptr := (nextByte ptr).2
    -- Switch on the high 4 bits.
    match (byte >>> 4).toNat with
    | 0x00 =>
      -- Special case of bit pattern 0xxx.
      if byte = 0 then
        throw ("String data shorter than indicated utf16_size " ++ hex size.toNat)
      else
        CheckIntraStringDataItemLoop size count ptr available_bytes
    | 0x01 | 0x02 | 0x03 | 0x04 | 0x05 | 0x06 | 0x07 =>
      CheckIntraStringDataItemLoop size count ptr available_bytes
    | 0x08 | 0x09 | 0x0a | 0x0b | 0x0f =>
      -- Illegal bit patterns 10xx or 1111.
      throw ("Illegal start byte " ++ hex byte.toNat ++ " in string data")
    | 0x0c | 0x0d =>
      -- Bit pattern 110x has an additional byte.
      if available_bytes < 1 then
        throw "String data would go beyond end-of-file"
      else
        let byte2 := (nextByte ptr).1
        if byte2 &&& 0xc0 ≠ 0x80 then
          throw ("Illegal continuation byte " ++ hex byte2.toNat ++ " in string data")
        else
          let value : UInt16 := ((byte &&& 0x1f).toUInt16 <<< 6) ||| (byte2 &&& 0x3f).toUInt16
          if value ≠ 0 ∧ value < 0x80 then
            throw ("Illegal representation for value " ++ hex value.toNat ++ " in string data")
          else
            CheckIntraStringDataItemLoop size count (nextByte ptr).2 (available_bytes - 1)
    | _ =>
      -- Bit pattern 1110, the one value left, has 2 additional bytes.
      if available_bytes < 2 then
        throw "String data would go beyond end-of-file"
      else
        let byte2 := (nextByte ptr).1
        if byte2 &&& 0xc0 ≠ 0x80 then
          throw ("Illegal continuation byte " ++ hex byte2.toNat ++ " in string data")
        else
          let byte3 := (nextByte (nextByte ptr).2).1
          if byte3 &&& 0xc0 ≠ 0x80 then
            throw ("Illegal continuation byte " ++ hex byte3.toNat ++ " in string data")
          else
            let value : UInt16 := ((byte &&& 0x0f).toUInt16 <<< 12) |||
              ((byte2 &&& 0x3f).toUInt16 <<< 6) ||| (byte3 &&& 0x3f).toUInt16
            if value < 0x800 then
              throw ("Illegal representation for value " ++ hex value.toNat ++ " in string data")
            else
              CheckIntraStringDataItemLoop size count (nextByte (nextByte ptr).2).2
                (available_bytes - 2)

/-- `CheckIntraStringDataItem` at `ptr`, whose end is the end of the file:
the pointer past the item's NUL. -/
def CheckIntraStringDataItem (ptr : List UInt8) : Except String (List UInt8) :=
  match DecodeUnsignedLeb128Checked ptr with
  | none => throw "Read out of bounds"
  | some (size, ptr) =>
    let available_bytes := ptr.length
    if available_bytes < size.toNat then
      throw "String data would go beyond end-of-file"
    else
      -- Eagerly subtract one byte per character.
      match CheckIntraStringDataItemLoop size size.toNat ptr (available_bytes - size.toNat) with
      | .error message => throw message
      | .ok (ptr, available_bytes) =>
        if available_bytes < 1 then
          throw "String data would go beyond end-of-file"
        else if (nextByte ptr).1 ≠ 0 then
          throw ("String longer than indicated size " ++ hex size.toNat)
        else
          pure (nextByte ptr).2

/-! ### Descriptors and shorties -/

variable (dex : DexFile)

end DexFileVerifier

namespace DexFileVerifier

variable (dex : DexFile)

end DexFileVerifier

namespace DexFileVerifier

variable (dex : DexFile)

end DexFileVerifier

/-! ### What the checks establish -/

@[simp] theorem except_error_bind {α β : Type} (message : String) (rest : α → Except String β) :
    (Except.error message >>= rest) = .error message := rfl

namespace DexFileVerifier

end DexFileVerifier

namespace DexFileVerifier

section StringData

theorem toNat_shiftRight_four (byte : UInt8) : (byte >>> 4).toNat = byte.toNat / 16 := by
  rw [UInt8.toNat_shiftRight, Nat.shiftRight_eq_div_pow]
  rfl

/-- A continuation byte `10xx xxxx` carries six bits of payload. -/
theorem continuation_payload {byte : UInt8} (continuation : byte &&& 0xc0 = 0x80) :
    byte.toNat = 0x80 + byte.toNat % 0x40 := by
  have masked := congrArg UInt8.toNat continuation
  rw [UInt8.toNat_and] at masked
  have range : ∀ n, n < 0x100 → n &&& 0xc0 = 0x80 → 0x80 ≤ n ∧ n < 0xc0 := by
    set_option maxRecDepth 4096 in decide
  have := range byte.toNat byte.toNat_lt masked
  omega

theorem toNat_and_low_bits (byte : UInt8) {k : Nat} (mask : UInt8) (isMask : mask.toNat = 2 ^ k - 1) :
    (byte &&& mask).toNat = byte.toNat % 2 ^ k := by
  rw [UInt8.toNat_and, isMask, Nat.and_two_pow_sub_one_eq_mod]

/-- The value the loop computes for a two-byte character, as a number. -/
theorem toNat_twoByteValue (byte byte2 : UInt8) :
    (((byte &&& 0x1f).toUInt16 <<< 6) ||| (byte2 &&& 0x3f).toUInt16).toNat =
      byte.toNat % 0x20 * 0x40 + byte2.toNat % 0x40 := by
  rw [UInt16.toNat_or, UInt16.toNat_shiftLeft, UInt8.toNat_toUInt16, UInt8.toNat_toUInt16,
    toNat_and_low_bits byte 0x1f (k := 5) rfl, toNat_and_low_bits byte2 0x3f (k := 6) rfl]
  have highBound : byte.toNat % 2 ^ 5 < 2 ^ 5 := Nat.mod_lt _ (by decide)
  have lowBound : byte2.toNat % 2 ^ 6 < 2 ^ 6 := Nat.mod_lt _ (by decide)
  rewrite [show (6 : UInt16).toNat % 16 = 6 from rfl, Nat.shiftLeft_eq, Nat.mod_eq_of_lt (by omega),
    or_eq_add_of_lt lowBound]
  omega

/-- The value the loop computes for a three-byte character, as a number. -/
theorem toNat_threeByteValue (byte byte2 byte3 : UInt8) :
    (((byte &&& 0x0f).toUInt16 <<< 12) ||| ((byte2 &&& 0x3f).toUInt16 <<< 6) |||
        (byte3 &&& 0x3f).toUInt16).toNat =
      byte.toNat % 0x10 * 0x1000 + byte2.toNat % 0x40 * 0x40 + byte3.toNat % 0x40 := by
  rw [UInt16.toNat_or, UInt16.toNat_or, UInt16.toNat_shiftLeft, UInt16.toNat_shiftLeft,
    UInt8.toNat_toUInt16, UInt8.toNat_toUInt16, UInt8.toNat_toUInt16,
    toNat_and_low_bits byte 0x0f (k := 4) rfl, toNat_and_low_bits byte2 0x3f (k := 6) rfl,
    toNat_and_low_bits byte3 0x3f (k := 6) rfl,
    show (12 : UInt16).toNat % 16 = 12 from rfl, show (6 : UInt16).toNat % 16 = 6 from rfl,
    Nat.shiftLeft_eq, Nat.shiftLeft_eq]
  have topBound : byte.toNat % 2 ^ 4 < 2 ^ 4 := Nat.mod_lt _ (by decide)
  have middleBound : byte2.toNat % 2 ^ 6 < 2 ^ 6 := Nat.mod_lt _ (by decide)
  have lowBound : byte3.toNat % 2 ^ 6 < 2 ^ 6 := Nat.mod_lt _ (by decide)
  generalize byte.toNat % 2 ^ 4 = top at topBound ⊢
  generalize byte2.toNat % 2 ^ 6 = middle at middleBound ⊢
  generalize byte3.toNat % 2 ^ 6 = low at lowBound ⊢
  -- `(top << 12 | middle << 6) | low`: each `|` joins bits the other leaves clear.
  have upper : top * 2 ^ 12 % 2 ^ 16 ||| middle * 2 ^ 6 % 2 ^ 16 = (top * 2 ^ 6 + middle) * 2 ^ 6 := by
    rw [Nat.mod_eq_of_lt (by omega), Nat.mod_eq_of_lt (by omega),
      or_eq_add_of_lt (by omega : middle * 2 ^ 6 < 2 ^ 12)]
    omega
  rw [upper, or_eq_add_of_lt lowBound]
  omega

/-- A start byte `0xxx xxxx` other than NUL is a character of its own. -/
theorem encodeUnit_of_oneByteForm {byte : UInt8} (nonzero : byte ≠ 0) (lead : byte.toNat / 16 < 8) :
    encodeUnit (UInt16.ofNat byte.toNat) = [byte] :=
  encodeUnit_oneByte (fun zero => nonzero (UInt8.toNat_inj.mp zero)) (by omega)

/-- A start byte `110x xxxx`, a continuation byte and a value that is not an
overlong form of a low character: the encoding of that value. -/
theorem encodeUnit_of_twoByteForm {byte byte2 : UInt8} (lead : byte.toNat / 16 = 0xc ∨ byte.toNat / 16 = 0xd)
    (continuation : byte2 &&& 0xc0 = 0x80)
    (canonical : ¬(((byte &&& 0x1f).toUInt16 <<< 6) ||| (byte2 &&& 0x3f).toUInt16 ≠ 0 ∧
      ((byte &&& 0x1f).toUInt16 <<< 6) ||| (byte2 &&& 0x3f).toUInt16 < 0x80)) :
    encodeUnit (((byte &&& 0x1f).toUInt16 <<< 6) ||| (byte2 &&& 0x3f).toUInt16) = [byte, byte2] := by
  have value := toNat_twoByteValue byte byte2
  have payload := continuation_payload continuation
  have small : ((byte &&& 0x1f).toUInt16 <<< 6 ||| (byte2 &&& 0x3f).toUInt16).toNat < 0x10000 :=
    UInt16.toNat_lt_size _
  simp only [ne_eq, ← UInt16.toNat_inj, UInt16.toNat_zero, UInt16.lt_iff_toNat_lt, value,
    UInt16.reduceToNat] at canonical
  have asNumber : ((byte &&& 0x1f).toUInt16 <<< 6) ||| (byte2 &&& 0x3f).toUInt16 =
      UInt16.ofNat (byte.toNat % 0x20 * 0x40 + byte2.toNat % 0x40) := by
    rw [← UInt16.toNat_inj, value, toNat_ofNat_unit (by omega)]
  rw [asNumber]
  exact encodeUnit_twoBytes (by omega) (by omega) (by omega) payload (by omega)

/-- A start byte `1110 xxxx`, two continuation bytes and a value of at least
`0x800`: the encoding of that value. -/
theorem encodeUnit_of_threeByteForm {byte byte2 byte3 : UInt8} (lead : byte.toNat / 16 = 0xe)
    (continuation2 : byte2 &&& 0xc0 = 0x80) (continuation3 : byte3 &&& 0xc0 = 0x80)
    (canonical : ¬(((byte &&& 0x0f).toUInt16 <<< 12) ||| ((byte2 &&& 0x3f).toUInt16 <<< 6) |||
      (byte3 &&& 0x3f).toUInt16 < 0x800)) :
    encodeUnit (((byte &&& 0x0f).toUInt16 <<< 12) ||| ((byte2 &&& 0x3f).toUInt16 <<< 6) |||
      (byte3 &&& 0x3f).toUInt16) = [byte, byte2, byte3] := by
  have value := toNat_threeByteValue byte byte2 byte3
  have payload2 := continuation_payload continuation2
  have payload3 := continuation_payload continuation3
  simp only [UInt16.lt_iff_toNat_lt, value, UInt16.reduceToNat] at canonical
  have asNumber : ((byte &&& 0x0f).toUInt16 <<< 12) ||| ((byte2 &&& 0x3f).toUInt16 <<< 6) |||
      (byte3 &&& 0x3f).toUInt16 =
      UInt16.ofNat (byte.toNat % 0x10 * 0x1000 + byte2.toNat % 0x40 * 0x40 + byte3.toNat % 0x40) := by
    rw [← UInt16.toNat_inj, value, toNat_ofNat_unit (by omega)]
  rw [asNumber]
  exact encodeUnit_threeBytes (by omega) (by omega) (by omega) (by omega) payload2 payload3
    (by omega)

theorem byte_ne_zero_of_pos {byte : UInt8} (positive : 0 < byte.toNat) : byte ≠ 0 :=
  fun zero => by simp [zero] at positive

/-- One character the loop of `CheckIntraStringDataItem` accepts is the
encoding of one unit, and the loop goes on after it with what is left of the
bytes still accounted for.  The cases are the loop's switch on the high four
bits of the start byte. -/
theorem CheckIntraStringDataItemLoop_succ {size : UInt32} {count : Nat} {ptr : List UInt8}
    {available_bytes : Nat} {after : List UInt8} {left : Nat}
    (passes : CheckIntraStringDataItemLoop size (count + 1) ptr available_bytes = .ok (after, left))
    (fits : available_bytes + (count + 1) ≤ ptr.length) :
    ∃ unit rest available, ptr = encodeUnit unit ++ rest ∧ available + count ≤ rest.length ∧
      CheckIntraStringDataItemLoop size count rest available = .ok (after, left) := by
  obtain ⟨byte, more, rfl⟩ : ∃ byte more, ptr = byte :: more :=
    List.exists_cons_of_ne_nil (by rintro rfl; simp at fits)
  have moreFits : available_bytes + count ≤ more.length := by
    simp only [List.length_cons] at fits
    omega
  have lead := toNat_shiftRight_four byte
  rw [CheckIntraStringDataItemLoop, nextByte_cons] at passes
  dsimp only at passes
  split at passes
  case h_1 nibble =>
    -- 0x00: NUL ends the string too early; any other byte is a character.
    by_cases zero : byte = 0
    · rw [if_pos zero] at passes
      simp at passes
    · rw [if_neg zero] at passes
      exact ⟨UInt16.ofNat byte.toNat, more, available_bytes,
        by rw [encodeUnit_of_oneByteForm zero (by omega)]; rfl, moreFits, passes⟩
  case h_2 nibble | h_3 nibble | h_4 nibble | h_5 nibble | h_6 nibble | h_7 nibble | h_8 nibble =>
    -- 0x01 to 0x07: a character of one byte.
    exact ⟨UInt16.ofNat byte.toNat, more, available_bytes,
      by rw [encodeUnit_of_oneByteForm (byte_ne_zero_of_pos (by omega)) (by omega)]; rfl,
      moreFits, passes⟩
  case h_9 | h_10 | h_11 | h_12 | h_13 =>
    -- 10xx and 1111 start no character.
    simp at passes
  case h_14 nibble | h_15 nibble =>
    -- 110x: a second byte follows.
    split at passes
    · simp at passes
    next room =>
    obtain ⟨byte2, more, rfl⟩ : ∃ byte2 rest, more = byte2 :: rest :=
      List.exists_cons_of_ne_nil (by rintro rfl; simp at moreFits; omega)
    rw [nextByte_cons] at passes
    dsimp only at passes
    split at passes
    · simp at passes
    next continuation =>
    split at passes
    · simp at passes
    next canonical =>
    refine ⟨_, more, available_bytes - 1,
      by rw [encodeUnit_of_twoByteForm (by omega) (not_not.mp continuation) canonical]; rfl,
      by simp only [List.length_cons] at moreFits; omega, passes⟩
  case h_16 nibble0 nibble1 nibble2 nibble3 nibble4 nibble5 nibble6 nibble7 nibble8 nibble9
      nibble10 nibble11 nibble15 nibble12 nibble13 =>
    -- 1110, the one value left: two more bytes follow.
    have nibble : byte.toNat / 16 = 0xe := by
      have := byte.toNat_lt
      simp only [lead, imp_false] at nibble0 nibble1 nibble2 nibble3 nibble4 nibble5 nibble6 nibble7
      simp only [lead, imp_false] at nibble8 nibble9 nibble10 nibble11 nibble12 nibble13 nibble15
      omega
    split at passes
    · simp at passes
    next room =>
    obtain ⟨byte2, byte3, more, rfl⟩ : ∃ byte2 byte3 rest, more = byte2 :: byte3 :: rest := by
      match more, moreFits with
      | byte2 :: byte3 :: rest, _ => exact ⟨byte2, byte3, rest, rfl⟩
      | [], short => simp at short; omega
      | [_], short => simp at short; omega
    rw [nextByte_cons, nextByte_cons] at passes
    dsimp only at passes
    split at passes
    · simp at passes
    next continuation2 =>
    split at passes
    · simp at passes
    next continuation3 =>
    split at passes
    · simp at passes
    next canonical =>
    refine ⟨_, more, available_bytes - 2,
      by rw [encodeUnit_of_threeByteForm nibble (not_not.mp continuation2)
        (not_not.mp continuation3) canonical]; rfl,
      by simp only [List.length_cons] at moreFits; omega, passes⟩

/-- What the loop of `CheckIntraStringDataItem` accepts is `count` encoded
units; induction on the characters left, each taken by
`CheckIntraStringDataItemLoop_succ`. -/
theorem CheckIntraStringDataItemLoop_encodes {size : UInt32} {count : Nat} {ptr : List UInt8}
    {available_bytes : Nat} {after : List UInt8} {left : Nat}
    (passes : CheckIntraStringDataItemLoop size count ptr available_bytes = .ok (after, left))
    (fits : available_bytes + count ≤ ptr.length) :
    ∃ units : List UInt16, units.length = count ∧ ptr = encodeUnits units ++ after ∧
      left ≤ after.length := by
  induction count generalizing ptr available_bytes with
  | zero =>
    rw [CheckIntraStringDataItemLoop] at passes
    obtain ⟨rfl, rfl⟩ := Prod.mk.inj (Except.ok.inj passes)
    exact ⟨[], rfl, rfl, by omega⟩
  | succ count inductionHypothesis =>
    obtain ⟨unit, rest, available, isUnit, restFits, restPasses⟩ :=
      CheckIntraStringDataItemLoop_succ passes fits
    obtain ⟨units, counted, isUnits, leftFits⟩ := inductionHypothesis restPasses restFits
    refine ⟨unit :: units, by rw [List.length_cons, counted], ?_, leftFits⟩
    rw [isUnit, isUnits, encodeUnits_cons, List.append_assoc]

end StringData

end DexFileVerifier

/-! ### The order each inter-section check establishes -/

namespace DexFileVerifier

variable {dex : DexFile}

end DexFileVerifier

namespace DexFileVerifier

variable {dex : DexFile}

end DexFileVerifier

/-! ### The checks of an accepted file -/

namespace DexFileVerifier

variable {dex : DexFile}

end DexFileVerifier

/-! ### Sorted id sections -/

namespace DexFileVerifier

variable {dex : DexFile}

namespace IdChecksPass

end IdChecksPass

end DexFileVerifier

/-! ### The lookups on an accepted file -/

namespace DexFileVerifier

end DexFileVerifier

end ArtRuntime.Dex
