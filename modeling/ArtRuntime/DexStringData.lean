import ArtRuntime.DexFileVerifier
import ArtRuntime.UtfConversion

namespace ArtRuntime.Dex

/-!
# The verifier's check of a string data item

`DexFileVerifier::CheckIntraStringDataItem` (in `DexFileVerifier`), taken
both ways: `CheckIntraStringDataItem_encodes` there says that what it accepts
is a count and that many encoded units; here `CheckIntraStringDataItemLoop_encodeUnits`
says that it accepts every such string, so that it accepts exactly the
Modified UTF-8 of `encodeUnits` (`CheckIntraStringDataItem_eq_ok_iff`).

The model reads a byte past the end of the file as NUL, where the verifier
would read past the mapping.  `CheckIntraStringDataItemLoop_append` and
`DecodeUnsignedLeb128Checked_append` show that it never does: its reads give
the same results whatever follows the end.
-/

namespace DexFileVerifier

section Forms

theorem continuation_of_payload {payload : Nat} (small : payload < 0x40) :
    (0x80 + payload) &&& 0xc0 = 0x80 := by
  revert payload
  decide

/-- The loop takes a start byte `0xxx xxxx` other than NUL as a character. -/
theorem CheckIntraStringDataItemLoop_oneByte {size : UInt32} {count available : Nat} {byte : UInt8}
    (more : List UInt8) (nonzero : byte ≠ 0) (single : byte.toNat < 0x80) :
    CheckIntraStringDataItemLoop size (count + 1) (byte :: more) available =
      CheckIntraStringDataItemLoop size count more available := by
  have lead : (byte >>> 4).toNat < 8 := by
    rw [toNat_shiftRight_four]
    omega
  rw [CheckIntraStringDataItemLoop, nextByte_cons]
  dsimp only
  -- The switch on the high four bits: a nibble below 8 takes one of the first
  -- eight cases, and all but the first go on at once.
  split
  case h_1 => rw [if_neg nonzero]
  case h_2 | h_3 | h_4 | h_5 | h_6 | h_7 | h_8 => rfl
  case h_9 | h_10 | h_11 | h_12 | h_13 | h_14 | h_15 => omega
  case h_16 nibble0 nibble1 nibble2 nibble3 nibble4 nibble5 nibble6 nibble7 _ _ _ _ _ _ _ =>
    simp only [imp_false] at nibble0 nibble1 nibble2 nibble3 nibble4 nibble5 nibble6 nibble7
    omega

theorem continuation_of_toNat {byte : UInt8} {payload : Nat} (small : payload < 0x40)
    (byteIs : byte.toNat = 0x80 + payload) : byte &&& 0xc0 = 0x80 := by
  rw [← UInt8.toNat_inj, UInt8.toNat_and, byteIs]
  exact continuation_of_payload small

/-- The loop takes a start byte `110x xxxx` and a continuation byte whose value
is NUL or at least `0x80` as a character, with one byte of the allowance. -/
theorem CheckIntraStringDataItemLoop_twoBytes {size : UInt32} {count available : Nat}
    {byte byte2 : UInt8} (more : List UInt8) {high low : Nat} (highBound : high < 0x20)
    (lowBound : low < 0x40) (byteIs : byte.toNat = 0xc0 + high) (byte2Is : byte2.toNat = 0x80 + low)
    (canonical : high * 0x40 + low = 0 ∨ 0x80 ≤ high * 0x40 + low) (room : 1 ≤ available) :
    CheckIntraStringDataItemLoop size (count + 1) (byte :: byte2 :: more) available =
      CheckIntraStringDataItemLoop size count more (available - 1) := by
  have value := toNat_twoByteValue byte byte2
  have continuation := continuation_of_toNat lowBound byte2Is
  have notOverlong : ¬(((byte &&& 0x1f).toUInt16 <<< 6) ||| (byte2 &&& 0x3f).toUInt16 ≠ 0 ∧
      ((byte &&& 0x1f).toUInt16 <<< 6) ||| (byte2 &&& 0x3f).toUInt16 < 0x80) := by
    simp only [ne_eq, ← UInt16.toNat_inj, UInt16.toNat_zero, UInt16.lt_iff_toNat_lt, value,
      UInt16.reduceToNat]
    omega
  have nibble : (byte >>> 4).toNat = 12 ∨ (byte >>> 4).toNat = 13 := by
    rw [toNat_shiftRight_four]
    omega
  -- `rw` rather than `simp`: the branch tests' `Decidable` instances mention
  -- the bytes as `nextByte` reads them.
  rw [CheckIntraStringDataItemLoop, nextByte_cons]
  dsimp only
  rw [nextByte_cons]
  dsimp only
  split
  case h_1 | h_2 | h_3 | h_4 | h_5 | h_6 | h_7 | h_8 | h_9 | h_10 | h_11 | h_12 | h_13 => omega
  case h_16 =>
    -- The catch-all case excludes both nibbles.
    rcases nibble with nibble | nibble <;> contradiction
  case h_14 | h_15 =>
    -- Each test of the branch fails: the allowance, the continuation byte, the
    -- overlong form.
    split
    · omega
    split
    · exact absurd continuation ‹_›
    rfl

/-- The loop takes a start byte `1110 xxxx`, two continuation bytes and a value
of at least `0x800` as a character, with two bytes of the allowance. -/
theorem CheckIntraStringDataItemLoop_threeBytes {size : UInt32} {count available : Nat}
    {byte byte2 byte3 : UInt8} (more : List UInt8) {top middle low : Nat} (topBound : top < 0x10)
    (middleBound : middle < 0x40) (lowBound : low < 0x40) (byteIs : byte.toNat = 0xe0 + top)
    (byte2Is : byte2.toNat = 0x80 + middle) (byte3Is : byte3.toNat = 0x80 + low)
    (canonical : 0x800 ≤ top * 0x1000 + middle * 0x40 + low) (room : 2 ≤ available) :
    CheckIntraStringDataItemLoop size (count + 1) (byte :: byte2 :: byte3 :: more) available =
      CheckIntraStringDataItemLoop size count more (available - 2) := by
  have value := toNat_threeByteValue byte byte2 byte3
  have continuation2 := continuation_of_toNat middleBound byte2Is
  have continuation3 := continuation_of_toNat lowBound byte3Is
  have notOverlong : ¬(((byte &&& 0x0f).toUInt16 <<< 12) ||| ((byte2 &&& 0x3f).toUInt16 <<< 6) |||
      (byte3 &&& 0x3f).toUInt16 < 0x800) := by
    simp only [UInt16.lt_iff_toNat_lt, value, UInt16.reduceToNat]
    omega
  have nibble : (byte >>> 4).toNat = 14 := by
    rw [toNat_shiftRight_four]
    omega
  rw [CheckIntraStringDataItemLoop, nextByte_cons]
  dsimp only
  rw [nextByte_cons]
  dsimp only
  rw [nextByte_cons]
  dsimp only
  split
  case h_1 | h_2 | h_3 | h_4 | h_5 | h_6 | h_7 | h_8 | h_9 | h_10 | h_11 | h_12 | h_13 | h_14 | h_15 =>
    omega
  split
  · omega
  split
  · exact absurd continuation2 ‹_›
  split
  · exact absurd continuation3 ‹_›
  rfl

end Forms

section Accepts

/-- The loop takes an encoded unit as one character, its bytes past the first
taken from the allowance. -/
theorem CheckIntraStringDataItemLoop_encodeUnit {size : UInt32} {count available : Nat}
    (unit : UInt16) (more : List UInt8) (room : (encodeUnit unit).length - 1 ≤ available) :
    CheckIntraStringDataItemLoop size (count + 1) (encodeUnit unit ++ more) available =
      CheckIntraStringDataItemLoop size count more (available - ((encodeUnit unit).length - 1)) := by
  have bound : unit.toNat < 0x10000 := unit.toNat_lt
  by_cases single : unit.toNat ≠ 0 ∧ unit.toNat < 0x80
  · have form : encodeUnit unit = [UInt8.ofNat unit.toNat] := by rw [encodeUnit, if_pos single]
    have byteIs : (UInt8.ofNat unit.toNat).toNat = unit.toNat := toNat_ofNat_byte (by omega)
    rw [form, List.singleton_append,
      CheckIntraStringDataItemLoop_oneByte more (byte_ne_zero_of_pos (by omega)) (by omega)]
    rfl
  by_cases double : unit.toNat < 0x800
  · have form : encodeUnit unit =
        [UInt8.ofNat (0xc0 + unit.toNat / 0x40), UInt8.ofNat (0x80 + unit.toNat % 0x40)] := by
      rw [encodeUnit, if_neg single, if_pos double]
    rw [form] at room ⊢
    rw [List.cons_append, List.cons_append, List.nil_append,
      CheckIntraStringDataItemLoop_twoBytes more (by omega : unit.toNat / 0x40 < 0x20)
        (by omega : unit.toNat % 0x40 < 0x40) (toNat_ofNat_byte (by omega))
        (toNat_ofNat_byte (by omega)) (by omega) (by simpa using room)]
    rfl
  · have form : encodeUnit unit =
        [UInt8.ofNat (0xe0 + unit.toNat / 0x1000), UInt8.ofNat (0x80 + unit.toNat / 0x40 % 0x40),
          UInt8.ofNat (0x80 + unit.toNat % 0x40)] := by
      rw [encodeUnit, if_neg single, if_neg double]
    rw [form] at room ⊢
    rw [List.cons_append, List.cons_append, List.cons_append, List.nil_append,
      CheckIntraStringDataItemLoop_threeBytes more (by omega : unit.toNat / 0x1000 < 0x10)
        (by omega : unit.toNat / 0x40 % 0x40 < 0x40) (by omega : unit.toNat % 0x40 < 0x40)
        (toNat_ofNat_byte (by omega)) (toNat_ofNat_byte (by omega)) (toNat_ofNat_byte (by omega))
        (by omega) (by simpa using room)]
    rfl

/-- The loop takes a string of encoded units, one character each, when the
allowance covers their bytes past the first of each. -/
theorem CheckIntraStringDataItemLoop_encodeUnits {size : UInt32} (units : List UInt16)
    (more : List UInt8) {available : Nat}
    (room : (encodeUnits units).length - units.length ≤ available) :
    CheckIntraStringDataItemLoop size units.length (encodeUnits units ++ more) available =
      .ok (more, available - ((encodeUnits units).length - units.length)) := by
  induction units generalizing available with
  | nil =>
    rw [encodeUnits_nil, List.nil_append, List.length_nil, CheckIntraStringDataItemLoop]
    rfl
  | cons unit units inductionHypothesis =>
    have oneByte := List.length_pos_iff.mpr (encodeUnit_ne_nil unit)
    have atLeast := length_le_length_encodeUnits units
    rw [encodeUnits_cons, List.length_append, List.length_cons] at room
    rw [encodeUnits_cons, List.append_assoc, List.length_cons,
      CheckIntraStringDataItemLoop_encodeUnit unit _ (by omega), inductionHypothesis (by omega),
      List.length_append]
    have allowance : available - ((encodeUnit unit).length - 1) -
        ((encodeUnits units).length - units.length) =
        available - ((encodeUnit unit).length + (encodeUnits units).length - (units.length + 1)) := by
      omega
    rw [allowance]

/-- `CheckIntraStringDataItem` accepts exactly a ULEB128 count followed by that
many encoded units and a NUL, and leaves the pointer past the NUL. -/
theorem CheckIntraStringDataItem_eq_ok_iff (ptr after : List UInt8) :
    CheckIntraStringDataItem ptr = .ok after ↔
      ∃ size units, DecodeUnsignedLeb128Checked ptr = some (size, encodeUnits units ++ 0 :: after) ∧
        size.toNat = units.length := by
  constructor
  · intro passes
    unfold CheckIntraStringDataItem at passes
    split at passes
    · simp at passes
    next size data decodes =>
    dsimp only at passes
    split at passes
    · simp at passes
    next enough =>
    split at passes
    · simp at passes
    next rest left loopPasses =>
    obtain ⟨units, counted, isUnits, leftFits⟩ :=
      CheckIntraStringDataItemLoop_encodes loopPasses (by omega)
    split at passes
    · simp at passes
    next room =>
    split at passes
    · simp at passes
    next terminated =>
    -- The allowance left covers the NUL, so it lies inside the file.
    obtain ⟨nul, more, rfl⟩ : ∃ nul more, rest = nul :: more :=
      List.exists_cons_of_ne_nil (by rintro rfl; simp at leftFits; omega)
    rw [nextByte_cons] at terminated passes
    have isNul : nul = 0 := not_not.mp terminated
    have afterIs : more = after := Except.ok.inj passes
    refine ⟨size, units, ?_, counted.symm⟩
    rw [decodes, isUnits, isNul, afterIs]
  · rintro ⟨size, units, decodes, counted⟩
    have atLeast := length_le_length_encodeUnits units
    unfold CheckIntraStringDataItem
    rw [decodes]
    dsimp only
    rw [if_neg (by simp only [List.length_append, List.length_cons]; omega), counted,
      CheckIntraStringDataItemLoop_encodeUnits units (0 :: after)
        (by simp only [List.length_append, List.length_cons]; omega)]
    dsimp only
    rw [if_neg (by simp only [List.length_append, List.length_cons]; omega), nextByte_cons,
      if_neg (not_not.mpr rfl)]
    rfl

end Accepts

section InsideTheFile

theorem nextByte_append {ptr : List UInt8} (nonempty : ptr ≠ []) (beyond : List UInt8) :
    nextByte (ptr ++ beyond) = ((nextByte ptr).1, (nextByte ptr).2 ++ beyond) := by
  obtain ⟨byte, more, rfl⟩ := List.exists_cons_of_ne_nil nonempty
  rfl

/-- The loop reads only the bytes that its count and allowance cover: bytes
appended after them change nothing but the pointer it returns. -/
theorem CheckIntraStringDataItemLoop_append {size : UInt32} {count : Nat} {ptr : List UInt8}
    {available : Nat} (fits : available + count ≤ ptr.length) (beyond : List UInt8) :
    CheckIntraStringDataItemLoop size count (ptr ++ beyond) available =
      (CheckIntraStringDataItemLoop size count ptr available).map
        fun result => (result.1 ++ beyond, result.2) := by
  induction count generalizing ptr available with
  | zero =>
    rw [CheckIntraStringDataItemLoop, CheckIntraStringDataItemLoop]
    rfl
  | succ count inductionHypothesis =>
    obtain ⟨byte, more, rfl⟩ : ∃ byte more, ptr = byte :: more :=
      List.exists_cons_of_ne_nil (by rintro rfl; simp at fits)
    have moreFits : available + count ≤ more.length := by
      simp only [List.length_cons] at fits
      omega
    rw [List.cons_append, CheckIntraStringDataItemLoop, CheckIntraStringDataItemLoop, nextByte_cons,
      nextByte_cons]
    dsimp only
    -- The switch on the high four bits, the same on both sides.
    split
    case h_1 =>
      split
      · rfl
      · exact inductionHypothesis moreFits
    case h_2 | h_3 | h_4 | h_5 | h_6 | h_7 | h_8 => exact inductionHypothesis moreFits
    case h_9 | h_10 | h_11 | h_12 | h_13 => rfl
    case h_14 | h_15 =>
      -- A second byte is read only when the allowance has one, so it is there.
      split
      · rfl
      next room =>
      obtain ⟨byte2, more, rfl⟩ : ∃ byte2 rest, more = byte2 :: rest :=
        List.exists_cons_of_ne_nil (by rintro rfl; simp at moreFits; omega)
      rw [List.cons_append, nextByte_cons, nextByte_cons]
      dsimp only
      split
      · rfl
      split
      · rfl
      exact inductionHypothesis (by simp only [List.length_cons] at moreFits; omega)
    case h_16 =>
      -- Two more bytes, read only when the allowance has two.
      split
      · rfl
      next room =>
      obtain ⟨byte2, byte3, more, rfl⟩ : ∃ byte2 byte3 rest, more = byte2 :: byte3 :: rest := by
        rcases more with _ | ⟨byte2, _ | ⟨byte3, rest⟩⟩
        · simp at moreFits; omega
        · simp at moreFits; omega
        · exact ⟨byte2, byte3, rest, rfl⟩
      rw [List.cons_append, List.cons_append, nextByte_cons, nextByte_cons, nextByte_cons,
        nextByte_cons]
      dsimp only
      split
      · rfl
      split
      · rfl
      split
      · rfl
      exact inductionHypothesis (by simp only [List.length_cons] at moreFits; omega)

/-- A checked ULEB128 read that succeeds reads only bytes before the end: the
same bytes with more after them decode the same. -/
theorem DecodeLeb128Loop_append {index remaining : Nat} {ptr : List UInt8} {result : UInt32}
    {decoded : UInt32 × List UInt8} (decodes : DecodeLeb128Loop true index remaining ptr result = some decoded)
    (beyond : List UInt8) :
    DecodeLeb128Loop true index remaining (ptr ++ beyond) result = some (decoded.1, decoded.2 ++ beyond) := by
  induction remaining generalizing index ptr result with
  | zero =>
    rw [DecodeLeb128Loop] at decodes ⊢
    rw [← Option.some.inj decodes]
  | succ remaining inductionHypothesis =>
    rw [DecodeLeb128Loop] at decodes ⊢
    -- The check before each byte passed, so the byte is inside.
    have nonempty : ptr ≠ [] := by
      rintro rfl
      simp at decodes
    have notEnd : ¬(true = true ∧ ptr ++ beyond = []) := by simp [nonempty]
    rw [if_neg notEnd, nextByte_append nonempty]
    rw [if_neg (by simp [nonempty])] at decodes
    dsimp only at decodes ⊢
    split
    · next last =>
      rw [if_pos last] at decodes
      rw [← Option.some.inj decodes]
    · next more =>
      rw [if_neg more] at decodes
      exact inductionHypothesis decodes

theorem DecodeUnsignedLeb128Checked_append {ptr : List UInt8} {size : UInt32} {data : List UInt8}
    (decodes : DecodeUnsignedLeb128Checked ptr = some (size, data)) (beyond : List UInt8) :
    DecodeUnsignedLeb128Checked (ptr ++ beyond) = some (size, data ++ beyond) :=
  DecodeLeb128Loop_append decodes beyond

end InsideTheFile

/-- `CheckIntraStringDataItem` is exact and stays inside the file.  It accepts
exactly a ULEB128 count followed by that many units in their one-, two- or
three-byte forms and a NUL, all inside the file.  Its reads stay before the
end of the file: the ULEB128 read is checked, so what it decodes is the same
with any bytes after the end; the loop it starts reads the same with any bytes
after the end; and the allowance the loop leaves never exceeds the bytes left,
so the NUL, read only with an allowance of at least one, is inside too.  On
success `CountModifiedUtf8Chars` of the accepted bytes is the count. -/
theorem string_data_check_exact_in_bounds (ptr : List UInt8) :
    (∀ after, CheckIntraStringDataItem ptr = .ok after ↔
      ∃ size units, DecodeUnsignedLeb128Checked ptr = some (size, encodeUnits units ++ 0 :: after) ∧
        size.toNat = units.length) ∧
    (∀ size data, DecodeUnsignedLeb128Checked ptr = some (size, data) → ∀ beyond,
      DecodeUnsignedLeb128Checked (ptr ++ beyond) = some (size, data ++ beyond) ∧
      (size.toNat ≤ data.length →
        CheckIntraStringDataItemLoop size size.toNat (data ++ beyond) (data.length - size.toNat) =
          (CheckIntraStringDataItemLoop size size.toNat data (data.length - size.toNat)).map
            (fun result => (result.1 ++ beyond, result.2)) ∧
        ∀ rest left, CheckIntraStringDataItemLoop size size.toNat data (data.length - size.toNat) =
          .ok (rest, left) → left ≤ rest.length)) ∧
    (∀ after, CheckIntraStringDataItem ptr = .ok after →
      ∃ size data, DecodeUnsignedLeb128Checked ptr = some (size, data) ∧
        CountModifiedUtf8Chars data (strlen data) = size.toNat) := by
  refine ⟨fun after => CheckIntraStringDataItem_eq_ok_iff ptr after, ?_, ?_⟩
  · intro size data decodes beyond
    refine ⟨DecodeUnsignedLeb128Checked_append decodes beyond, fun enough =>
      ⟨CheckIntraStringDataItemLoop_append (by omega) beyond, ?_⟩⟩
    intro rest left loopPasses
    obtain ⟨-, -, -, leftFits⟩ := CheckIntraStringDataItemLoop_encodes loopPasses (by omega)
    exact leftFits
  · intro after passes
    obtain ⟨size, units, decodes, counted⟩ := (CheckIntraStringDataItem_eq_ok_iff ptr after).mp passes
    refine ⟨size, _, decodes, ?_⟩
    rw [strlen_append (fun _ => ne_zero_of_mem_encodeUnits) rfl, CountModifiedUtf8Chars, List.drop_left,
      CountModifiedUtf8CharsLoop_encodeUnits, Nat.zero_add, counted]

end DexFileVerifier

end ArtRuntime.Dex
