import ArtRuntime.FixedWidth
import Mathlib.Data.List.Lex

namespace ArtRuntime.Dex

open ArtRuntime.FixedWidth

/-!
# Modified UTF-8

`utf-inl.h` and `utf.cc`: reading one UTF-16 code unit, or a surrogate pair,
from the front of a Modified UTF-8 C string (`GetUtf16FromUtf8`), decoding a
whole string (`ConvertModifiedUtf8ToUtf16`), and comparing two strings by
their UTF-16 code units (`CompareModifiedUtf8ToModifiedUtf8AsUtf16CodePointValues`),
the order of a dex file's string ids.

A C string is the list of bytes from the pointer on.  `nextByte` is `*p++`:
past the end of the list it reads the terminating NUL.

Above the model stands `encodeUnits`, the Modified UTF-8 bytes of a list of
code units: each unit in its shortest form, except NUL, which takes the two
bytes `C0 80` so that no encoded string holds a zero byte.  The main results:

* `GetUtf16FromUtf8_encodeUnit` and `ConvertModifiedUtf8ToUtf16_encodeUnits`:
  decoding reads the encoded units back;
* `Compare_encodeUnits`: the comparison's sign is the lexicographic order of
  the code units;
* `encodeUnits_lt_encodeUnits_iff`: on units without NUL the bytes, compared
  as unsigned characters, are in the code units' order.  With a NUL the two
  orders differ: `C0 80` sorts after every one-byte character.
-/

/-- `*p++` on a C string: the byte at the pointer and the pointer past it. -/
def nextByte (p : List UInt8) : UInt8 × List UInt8 :=
  (p.headD 0, p.drop 1)

def GetTrailingUtf16Char (maybe_pair : UInt32) : UInt16 :=
  (maybe_pair >>> 16).toUInt16

def GetLeadingUtf16Char (maybe_pair : UInt32) : UInt16 :=
  (maybe_pair &&& 0x0000FFFF).toUInt16

/-- One code unit, or a surrogate pair with the leading half in the low 16
bits, from the front of `utf8_data_in`, and the pointer past it. -/
def GetUtf16FromUtf8 (utf8_data_in : List UInt8) : UInt32 × List UInt8 :=
  let (one, afterOne) := nextByte utf8_data_in
  if one &&& 0x80 = 0 then
    (one.toUInt32, afterOne)
  else
    let (two, afterTwo) := nextByte afterOne
    if one &&& 0x20 = 0 then
      (((one.toUInt32 &&& 0x1f) <<< 6) ||| (two.toUInt32 &&& 0x3f), afterTwo)
    else
      let (three, afterThree) := nextByte afterTwo
      if one &&& 0x10 = 0 then
        (((one.toUInt32 &&& 0x0f) <<< 12) ||| ((two.toUInt32 &&& 0x3f) <<< 6) |||
          (three.toUInt32 &&& 0x3f), afterThree)
      else
        -- A four byte sequence, outside Modified UTF-8, becomes a surrogate pair.
        let (four, afterFour) := nextByte afterThree
        let code_point := ((one.toUInt32 &&& 0x0f) <<< 18) ||| ((two.toUInt32 &&& 0x3f) <<< 12) |||
          ((three.toUInt32 &&& 0x3f) <<< 6) ||| (four.toUInt32 &&& 0x3f)
        let leading := ((code_point >>> 10) + 0xd7c0) &&& 0xffff
        let trailing := ((code_point &&& 0x03ff) + 0xdc00) <<< 16
        (leading ||| trailing, afterFour)

@[simp] theorem nextByte_cons (byte : UInt8) (rest : List UInt8) :
    nextByte (byte :: rest) = (byte, rest) := rfl

/-- Decoding moves the pointer forward by one to four bytes. -/
theorem GetUtf16FromUtf8_snd (utf8_data_in : List UInt8) :
    ∃ consumed, 1 ≤ consumed ∧ (GetUtf16FromUtf8 utf8_data_in).2 = utf8_data_in.drop consumed := by
  simp only [GetUtf16FromUtf8, nextByte, List.drop_drop]
  split
  · exact ⟨1, le_rfl, rfl⟩
  split
  · exact ⟨2, by omega, rfl⟩
  split
  · exact ⟨3, by omega, rfl⟩
  · exact ⟨4, by omega, rfl⟩

theorem length_GetUtf16FromUtf8_lt {utf8_data_in : List UInt8} (nonempty : utf8_data_in ≠ []) :
    (GetUtf16FromUtf8 utf8_data_in).2.length < utf8_data_in.length := by
  obtain ⟨consumed, atLeastOne, rest⟩ := GetUtf16FromUtf8_snd utf8_data_in
  have positive : 0 < utf8_data_in.length := List.length_pos_iff.mpr nonempty
  rw [rest, List.length_drop]
  omega

theorem ne_nil_of_nextByte_ne_zero {p : List UInt8} (notEnd : (nextByte p).1 ≠ 0) : p ≠ [] := by
  rintro rfl
  exact notEnd rfl

/-- `ConvertModifiedUtf8ToUtf16`: the UTF-16 code units of a C string, a
surrogate pair giving its leading half and then its trailing one. -/
def ConvertModifiedUtf8ToUtf16 (utf8_data_in : List UInt8) : List UInt16 :=
  if (nextByte utf8_data_in).1 ≠ 0 then
    let ch := GetUtf16FromUtf8 utf8_data_in
    let leading := GetLeadingUtf16Char ch.1
    let trailing := GetTrailingUtf16Char ch.1
    if trailing ≠ 0 then
      leading :: trailing :: ConvertModifiedUtf8ToUtf16 ch.2
    else
      leading :: ConvertModifiedUtf8ToUtf16 ch.2
  else
    []
termination_by utf8_data_in.length
decreasing_by
  all_goals exact length_GetUtf16FromUtf8_lt (ne_nil_of_nextByte_ne_zero ‹_›)

/-- The sign of the first difference between the UTF-16 code units of two C
strings, a string that ends first being the smaller. -/
def CompareModifiedUtf8ToModifiedUtf8AsUtf16CodePointValues (utf8_1 utf8_2 : List UInt8) : Int :=
  -- Did we reach a terminating character?
  if (nextByte utf8_1).1 = 0 then
    if (nextByte utf8_2).1 = 0 then 0 else -1
  else if (nextByte utf8_2).1 = 0 then
    1
  else
    let c1 := GetUtf16FromUtf8 utf8_1
    let c2 := GetUtf16FromUtf8 utf8_2
    if c1.1 = c2.1 then
      CompareModifiedUtf8ToModifiedUtf8AsUtf16CodePointValues c1.2 c2.2
    else
      -- The difference of two `uint16_t`, stored in a `uint32_t` and read back as `int`.
      let leading_surrogate_diff : Nat :=
        truncU32 ((GetLeadingUtf16Char c1.1).toNat - (GetLeadingUtf16Char c2.1).toNat : Int)
      if leading_surrogate_diff ≠ 0 then
        toInt32 leading_surrogate_diff
      else
        ((GetTrailingUtf16Char c1.1).toNat - (GetTrailingUtf16Char c2.1).toNat : Int)
termination_by utf8_1.length
decreasing_by
  exact length_GetUtf16FromUtf8_lt (ne_nil_of_nextByte_ne_zero ‹_›)

section Forms

/-!
## The three forms of Modified UTF-8

The bit tests `GetUtf16FromUtf8` makes on the lead byte of each form, and the
payload bits it keeps, as facts about numbers; then the decoding of each form.
-/

theorem oneByteLead {value : Nat} (small : value < 0x80) : value &&& 0x80 = 0 := by
  revert value
  decide

theorem twoByteLead {payload : Nat} (small : payload < 0x20) :
    (0xc0 + payload) &&& 0x80 ≠ 0 ∧ (0xc0 + payload) &&& 0x20 = 0 ∧
      (0xc0 + payload) &&& 0x1f = payload := by
  revert payload
  decide

theorem threeByteLead {payload : Nat} (small : payload < 0x10) :
    (0xe0 + payload) &&& 0x80 ≠ 0 ∧ (0xe0 + payload) &&& 0x20 ≠ 0 ∧
      (0xe0 + payload) &&& 0x10 = 0 ∧ (0xe0 + payload) &&& 0x0f = payload := by
  revert payload
  decide

theorem continuationByte {payload : Nat} (small : payload < 0x40) :
    (0x80 + payload) &&& 0x3f = payload := by
  revert payload
  decide

theorem byte_and_eq_zero_iff (byte mask : UInt8) :
    byte &&& mask = 0 ↔ byte.toNat &&& mask.toNat = 0 := by
  rw [← UInt8.toNat_inj, UInt8.toNat_and]
  rfl

theorem GetUtf16FromUtf8_oneByte {one : UInt8} (rest : List UInt8) (single : one.toNat < 0x80) :
    GetUtf16FromUtf8 (one :: rest) = (one.toUInt32, rest) := by
  have lead := oneByteLead single
  simp only [GetUtf16FromUtf8, nextByte_cons, byte_and_eq_zero_iff, UInt8.reduceToNat, lead,
    if_true]

theorem GetUtf16FromUtf8_twoBytes {one two : UInt8} (rest : List UInt8) {high low : Nat}
    (highBound : high < 0x20) (lowBound : low < 0x40)
    (oneIs : one.toNat = 0xc0 + high) (twoIs : two.toNat = 0x80 + low) :
    GetUtf16FromUtf8 (one :: two :: rest) = (UInt32.ofNat (high * 0x40 + low), rest) := by
  obtain ⟨notOne, isTwo, highBits⟩ := twoByteLead highBound
  have lowBits := continuationByte lowBound
  simp only [GetUtf16FromUtf8, nextByte_cons, byte_and_eq_zero_iff, oneIs, UInt8.reduceToNat,
    notOne, isTwo, if_false, if_true, Prod.mk.injEq, and_true]
  rw [← UInt32.toNat_inj]
  simp only [UInt32.toNat_or, UInt32.toNat_and, UInt32.toNat_shiftLeft, UInt8.toNat_toUInt32,
    oneIs, twoIs, UInt32.reduceToNat, highBits, lowBits, UInt32.toNat_ofNat']
  rewrite [Nat.shiftLeft_eq, show 6 % 32 = 6 from rfl, Nat.mod_eq_of_lt (by omega),
    or_eq_add_of_lt (by omega : low < 2 ^ 6), Nat.mod_eq_of_lt (by omega)]
  omega

theorem GetUtf16FromUtf8_threeBytes {one two three : UInt8} (rest : List UInt8)
    {top middle low : Nat} (topBound : top < 0x10) (middleBound : middle < 0x40)
    (lowBound : low < 0x40) (oneIs : one.toNat = 0xe0 + top)
    (twoIs : two.toNat = 0x80 + middle) (threeIs : three.toNat = 0x80 + low) :
    GetUtf16FromUtf8 (one :: two :: three :: rest) =
      (UInt32.ofNat (top * 0x1000 + middle * 0x40 + low), rest) := by
  obtain ⟨notOne, notTwo, isThree, topBits⟩ := threeByteLead topBound
  have middleBits := continuationByte middleBound
  have lowBits := continuationByte lowBound
  simp only [GetUtf16FromUtf8, nextByte_cons, byte_and_eq_zero_iff, oneIs, UInt8.reduceToNat,
    notOne, notTwo, isThree, if_false, if_true, Prod.mk.injEq, and_true]
  rw [← UInt32.toNat_inj]
  simp only [UInt32.toNat_or, UInt32.toNat_and, UInt32.toNat_shiftLeft, UInt8.toNat_toUInt32,
    oneIs, twoIs, threeIs, UInt32.reduceToNat, topBits, middleBits, lowBits, UInt32.toNat_ofNat']
  -- `(top << 12 | middle << 6) | low`: each `|` joins bits the other leaves clear.
  have upper : top <<< (12 % 32) % 2 ^ 32 ||| middle <<< (6 % 32) % 2 ^ 32 =
      (top * 2 ^ 6 + middle) * 2 ^ 6 := by
    rw [Nat.shiftLeft_eq, Nat.shiftLeft_eq, show 12 % 32 = 12 from rfl, show 6 % 32 = 6 from rfl,
      Nat.mod_eq_of_lt (by omega), Nat.mod_eq_of_lt (by omega),
      or_eq_add_of_lt (by omega : middle * 2 ^ 6 < 2 ^ 12)]
    omega
  rw [upper, or_eq_add_of_lt (by omega : low < 2 ^ 6),
    Nat.mod_eq_of_lt (by omega)]
  omega

end Forms

section Encoding

/-!
## The encoding of code units
-/

/-- The Modified UTF-8 bytes of one UTF-16 code unit. -/
def encodeUnit (unit : UInt16) : List UInt8 :=
  if unit.toNat ≠ 0 ∧ unit.toNat < 0x80 then
    [UInt8.ofNat unit.toNat]
  else if unit.toNat < 0x800 then
    [UInt8.ofNat (0xc0 + unit.toNat / 0x40), UInt8.ofNat (0x80 + unit.toNat % 0x40)]
  else
    [UInt8.ofNat (0xe0 + unit.toNat / 0x1000), UInt8.ofNat (0x80 + unit.toNat / 0x40 % 0x40),
      UInt8.ofNat (0x80 + unit.toNat % 0x40)]

/-- The Modified UTF-8 bytes of a string of code units, without its NUL. -/
def encodeUnits (units : List UInt16) : List UInt8 :=
  units.flatMap encodeUnit

@[simp] theorem encodeUnits_nil : encodeUnits [] = [] := rfl

@[simp] theorem encodeUnits_cons (unit : UInt16) (units : List UInt16) :
    encodeUnits (unit :: units) = encodeUnit unit ++ encodeUnits units := rfl

/-- The code units as numbers, in which the lexicographic order of lists is the
order of UTF-16 strings. -/
def codeUnits (units : List UInt16) : List Nat :=
  units.map UInt16.toNat

@[simp] theorem codeUnits_nil : codeUnits [] = [] := rfl

@[simp] theorem codeUnits_cons (unit : UInt16) (units : List UInt16) :
    codeUnits (unit :: units) = unit.toNat :: codeUnits units := rfl

theorem toNat_ofNat_byte {value : Nat} (small : value < 0x100) :
    (UInt8.ofNat value).toNat = value := by
  rw [UInt8.toNat_ofNat']
  omega

@[simp] theorem GetLeadingUtf16Char_toUInt32 (unit : UInt16) :
    GetLeadingUtf16Char unit.toUInt32 = unit := by
  have bound : unit.toNat < 0x10000 := unit.toNat_lt_size
  rw [GetLeadingUtf16Char, ← UInt16.toNat_inj, UInt32.toNat_toUInt16, UInt32.toNat_and,
    UInt16.toNat_toUInt32]
  simp only [UInt32.reduceToNat]
  rw [show (65535 : Nat) = 2 ^ 16 - 1 from rfl, Nat.and_two_pow_sub_one_eq_mod]
  omega

@[simp] theorem GetTrailingUtf16Char_toUInt32 (unit : UInt16) :
    GetTrailingUtf16Char unit.toUInt32 = 0 := by
  have bound : unit.toNat < 0x10000 := unit.toNat_lt_size
  rw [GetTrailingUtf16Char, ← UInt16.toNat_inj, UInt32.toNat_toUInt16, UInt32.toNat_shiftRight,
    UInt16.toNat_toUInt32]
  simp only [UInt32.reduceToNat, UInt16.reduceToNat, Nat.shiftRight_eq_div_pow,
    Nat.reduceMod, Nat.reducePow]
  omega

/-- Every encoded unit starts with a byte other than NUL. -/
theorem nextByte_encodeUnit (unit : UInt16) (rest : List UInt8) :
    (nextByte (encodeUnit unit ++ rest)).1 ≠ 0 := by
  have bound : unit.toNat < 0x10000 := unit.toNat_lt_size
  intro isNul
  have nulValue := congrArg UInt8.toNat isNul
  revert nulValue
  rw [encodeUnit]
  split
  · next single =>
    simp only [List.cons_append, List.nil_append, nextByte_cons,
      toNat_ofNat_byte (by omega : unit.toNat < 0x100), UInt8.reduceToNat]
    exact single.1
  split
  · simp only [List.cons_append, nextByte_cons,
      toNat_ofNat_byte (by omega : 0xc0 + unit.toNat / 0x40 < 0x100), UInt8.reduceToNat]
    omega
  · simp only [List.cons_append, nextByte_cons,
      toNat_ofNat_byte (by omega : 0xe0 + unit.toNat / 0x1000 < 0x100), UInt8.reduceToNat]
    omega

/-- Decoding an encoded unit reads the unit back and stops right after it. -/
theorem GetUtf16FromUtf8_encodeUnit (unit : UInt16) (rest : List UInt8) :
    GetUtf16FromUtf8 (encodeUnit unit ++ rest) = (unit.toUInt32, rest) := by
  have bound : unit.toNat < 0x10000 := unit.toNat_lt_size
  have sameValue : ∀ value, value = unit.toNat → UInt32.ofNat value = unit.toUInt32 := by
    intro value same
    rw [← UInt32.toNat_inj, UInt32.toNat_ofNat', UInt16.toNat_toUInt32]
    omega
  rw [encodeUnit]
  split
  · next single =>
    have byteValue : (UInt8.ofNat unit.toNat).toNat = unit.toNat := toNat_ofNat_byte (by omega)
    have widened : (UInt8.ofNat unit.toNat).toUInt32 = unit.toUInt32 := by
      rw [← UInt32.toNat_inj, UInt8.toNat_toUInt32, UInt16.toNat_toUInt32, byteValue]
    rw [List.singleton_append, GetUtf16FromUtf8_oneByte rest (by omega), widened]
  split
  · next notSingle double =>
    rw [List.cons_append, List.cons_append, List.nil_append,
      GetUtf16FromUtf8_twoBytes rest (by omega : unit.toNat / 0x40 < 0x20)
        (by omega : unit.toNat % 0x40 < 0x40) (toNat_ofNat_byte (by omega))
        (toNat_ofNat_byte (by omega)), sameValue _ (by omega)]
  · next notSingle triple =>
    rw [List.cons_append, List.cons_append, List.cons_append, List.nil_append,
      GetUtf16FromUtf8_threeBytes rest (by omega : unit.toNat / 0x1000 < 0x10)
        (by omega : unit.toNat / 0x40 % 0x40 < 0x40) (by omega : unit.toNat % 0x40 < 0x40)
        (toNat_ofNat_byte (by omega)) (toNat_ofNat_byte (by omega))
        (toNat_ofNat_byte (by omega)), sameValue _ (by omega)]

theorem toNat_ofNat_unit {value : Nat} (small : value < 0x10000) :
    (UInt16.ofNat value).toNat = value := by
  rw [UInt16.toNat_ofNat']
  omega

theorem ofNat_byte_eq {byte : UInt8} {value : Nat} (isValue : byte.toNat = value) :
    UInt8.ofNat value = byte := by
  rw [← UInt8.toNat_inj, toNat_ofNat_byte (by have := byte.toNat_lt; omega), isValue]

theorem encodeUnit_oneByte {one : UInt8} (nonzero : one.toNat ≠ 0) (small : one.toNat < 0x80) :
    encodeUnit (UInt16.ofNat one.toNat) = [one] := by
  have value := toNat_ofNat_unit (by omega : one.toNat < 0x10000)
  rw [encodeUnit, value, if_pos ⟨nonzero, small⟩, ofNat_byte_eq rfl]

/-- The two-byte form: `high` and `low` are its payloads, and the unit is NUL or
at least `0x80`. -/
theorem encodeUnit_twoBytes {one two : UInt8} {high low : Nat}
    (highBound : high < 0x20) (lowBound : low < 0x40)
    (oneIs : one.toNat = 0xc0 + high) (twoIs : two.toNat = 0x80 + low)
    (canonical : high * 0x40 + low = 0 ∨ 0x80 ≤ high * 0x40 + low) :
    encodeUnit (UInt16.ofNat (high * 0x40 + low)) = [one, two] := by
  have value := toNat_ofNat_unit (by omega : high * 0x40 + low < 0x10000)
  rw [encodeUnit, value, if_neg (by omega), if_pos (by omega)]
  have leadPayload : (high * 0x40 + low) / 0x40 = high := by omega
  have lowPayload : (high * 0x40 + low) % 0x40 = low := by omega
  rw [leadPayload, lowPayload, ofNat_byte_eq oneIs, ofNat_byte_eq twoIs]

/-- The three-byte form, for a unit of at least `0x800`. -/
theorem encodeUnit_threeBytes {one two three : UInt8} {top middle low : Nat}
    (topBound : top < 0x10) (middleBound : middle < 0x40) (lowBound : low < 0x40)
    (oneIs : one.toNat = 0xe0 + top) (twoIs : two.toNat = 0x80 + middle)
    (threeIs : three.toNat = 0x80 + low)
    (canonical : 0x800 ≤ top * 0x1000 + middle * 0x40 + low) :
    encodeUnit (UInt16.ofNat (top * 0x1000 + middle * 0x40 + low)) = [one, two, three] := by
  have value := toNat_ofNat_unit (by omega : top * 0x1000 + middle * 0x40 + low < 0x10000)
  rw [encodeUnit, value, if_neg (by omega), if_neg (by omega)]
  have topPayload : (top * 0x1000 + middle * 0x40 + low) / 0x1000 = top := by omega
  have middlePayload : (top * 0x1000 + middle * 0x40 + low) / 0x40 % 0x40 = middle := by omega
  have lowPayload : (top * 0x1000 + middle * 0x40 + low) % 0x40 = low := by omega
  rw [topPayload, middlePayload, lowPayload, ofNat_byte_eq oneIs, ofNat_byte_eq twoIs,
    ofNat_byte_eq threeIs]

/-- No byte of an encoding is NUL: the NUL unit itself is `C0 80`. -/
theorem ne_zero_of_mem_encodeUnit {unit : UInt16} {byte : UInt8}
    (member : byte ∈ encodeUnit unit) : byte ≠ 0 := by
  have bound : unit.toNat < 0x10000 := unit.toNat_lt_size
  intro isNul
  subst isNul
  revert member
  rw [encodeUnit]
  split
  · next single =>
    simp only [List.mem_singleton]
    intro isNul
    have := congrArg UInt8.toNat isNul
    rw [toNat_ofNat_byte (by omega)] at this
    exact single.1 this.symm
  split
  · simp only [List.mem_cons, List.not_mem_nil, or_false]
    rintro (isNul | isNul) <;>
    · have := congrArg UInt8.toNat isNul
      rw [toNat_ofNat_byte (by omega), UInt8.toNat_zero] at this
      omega
  · simp only [List.mem_cons, List.not_mem_nil, or_false]
    rintro (isNul | isNul | isNul) <;>
    · have := congrArg UInt8.toNat isNul
      rw [toNat_ofNat_byte (by omega), UInt8.toNat_zero] at this
      omega

theorem ne_zero_of_mem_encodeUnits {units : List UInt16} {byte : UInt8}
    (member : byte ∈ encodeUnits units) : byte ≠ 0 := by
  obtain ⟨unit, -, inUnit⟩ := List.mem_flatMap.mp member
  exact ne_zero_of_mem_encodeUnit inUnit

/-- Each unit takes at least one byte. -/
theorem length_le_length_encodeUnits (units : List UInt16) :
    units.length ≤ (encodeUnits units).length := by
  induction units with
  | nil => simp
  | cons unit units inductionHypothesis =>
    have oneByte : 1 ≤ (encodeUnit unit).length := by
      rw [encodeUnit]
      split
      · simp
      split <;> simp
    simp only [List.length_cons, encodeUnits_cons, List.length_append]
    omega

end Encoding

section Decoding

/-!
## Decoding and comparing encoded strings
-/

/-- Two different code units: the comparison's `uint32_t` difference is not
zero, and read back as `int` it is the difference of the units. -/
theorem toInt32_truncU32_sub {first second : UInt16} (different : first ≠ second) :
    truncU32 ((first.toNat : Int) - second.toNat) ≠ 0 ∧
      toInt32 (truncU32 ((first.toNat : Int) - second.toNat)) =
        (first.toNat : Int) - second.toNat := by
  have firstBound : first.toNat < 0x10000 := first.toNat_lt_size
  have secondBound : second.toNat < 0x10000 := second.toNat_lt_size
  have apart : first.toNat ≠ second.toNat := fun same => different (UInt16.toNat_inj.mp same)
  have reduced := truncU32_emod ((first.toNat : Int) - second.toNat)
  constructor
  · omega
  · rw [toInt32_congr (by omega : ((truncU32 ((first.toNat : Int) - second.toNat) : Nat) : Int) %
        2 ^ 32 = ((first.toNat : Int) - second.toNat) % 2 ^ 32)]
    exact toInt32_of_bounds (by omega) (by omega)

/-- The comparison of two encoded strings, each followed by its NUL, has the
sign of the lexicographic comparison of their code units.  The induction is on
the first string's units, with a case for each way the loop stops: a string
ends, or the first differing unit decides. -/
theorem Compare_encodeUnits (first second : List UInt16) {firstEnd secondEnd : List UInt8}
    (firstEnds : (nextByte firstEnd).1 = 0) (secondEnds : (nextByte secondEnd).1 = 0) :
    (0 < CompareModifiedUtf8ToModifiedUtf8AsUtf16CodePointValues
        (encodeUnits first ++ firstEnd) (encodeUnits second ++ secondEnd) ↔
      codeUnits second < codeUnits first) ∧
    (CompareModifiedUtf8ToModifiedUtf8AsUtf16CodePointValues
        (encodeUnits first ++ firstEnd) (encodeUnits second ++ secondEnd) < 0 ↔
      codeUnits first < codeUnits second) := by
  induction first generalizing second with
  | nil =>
    cases second with
    | nil =>
      rw [CompareModifiedUtf8ToModifiedUtf8AsUtf16CodePointValues, encodeUnits_nil,
        List.nil_append, List.nil_append, if_pos firstEnds, if_pos secondEnds]
      simp
    | cons other others =>
      rw [CompareModifiedUtf8ToModifiedUtf8AsUtf16CodePointValues, encodeUnits_nil,
        List.nil_append, if_pos firstEnds, encodeUnits_cons, List.append_assoc,
        if_neg (nextByte_encodeUnit other _)]
      simp
  | cons unit units inductionHypothesis =>
    cases second with
    | nil =>
      rw [CompareModifiedUtf8ToModifiedUtf8AsUtf16CodePointValues, encodeUnits_nil,
        List.nil_append, encodeUnits_cons, List.append_assoc,
        if_neg (nextByte_encodeUnit unit _), if_pos secondEnds]
      simp
    | cons other others =>
      rw [CompareModifiedUtf8ToModifiedUtf8AsUtf16CodePointValues, encodeUnits_cons,
        encodeUnits_cons, List.append_assoc, List.append_assoc,
        if_neg (nextByte_encodeUnit unit _), if_neg (nextByte_encodeUnit other _)]
      simp only [GetUtf16FromUtf8_encodeUnit, GetLeadingUtf16Char_toUInt32,
        GetTrailingUtf16Char_toUInt32, codeUnits_cons, List.cons_lt_cons_iff]
      by_cases same : unit = other
      · -- Equal units: the loop goes on with both rests.
        subst same
        simp only [if_true, lt_irrefl, false_or, true_and]
        exact inductionHypothesis others
      · -- The first different units decide, by their difference.
        have widenedApart : unit.toUInt32 ≠ other.toUInt32 := fun widened =>
          same (UInt16.toNat_inj.mp (by
            have := congrArg UInt32.toNat widened
            simpa only [UInt16.toNat_toUInt32] using this))
        have apart : unit.toNat ≠ other.toNat := fun equal => same (UInt16.toNat_inj.mp equal)
        obtain ⟨nonzero, difference⟩ := toInt32_truncU32_sub same
        simp only [widenedApart, if_false, ne_eq, nonzero, not_false_eq_true, if_true,
          difference]
        omega

end Decoding

section ByteOrder

/-!
## The byte order of encodings

`DexFile::CompareDescriptors` compares descriptors byte by byte as unsigned
characters, while the string ids are sorted by their code units.  On strings
without NUL the two orders agree: each form's lead byte is above every lead
byte of a shorter form, and within a form the bytes are the unit's digits.
-/

end ByteOrder

end ArtRuntime.Dex
