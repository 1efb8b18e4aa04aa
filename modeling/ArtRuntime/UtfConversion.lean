import ArtRuntime.Utf

namespace ArtRuntime.Dex

open ArtRuntime.FixedWidth

/-!
# Converting between UTF-16 and Modified UTF-8

`ConvertUtf16ToUtf8` of `utf-inl.h`, the encoder behind
`CountModifiedUtf8BytesInUtf16` and `ConvertUtf16ToModifiedUtf8`, and the
readers of `utf.cc` that take a length: `CountModifiedUtf8Chars`, the sized
`ConvertModifiedUtf8ToUtf16` and `ComputeUtf16HashFromModifiedUtf8`.

A `const uint16_t*` with its `char_count` is the list of those units, and the
bytes an `append` callback receives are a list.  A reader's `const char*` is,
as in `Utf`, the bytes from the pointer on; its end pointer `p + byte_count`
is the suffix `byte_count` bytes further, and `p < end` compares the lengths
of the two suffixes.

The instance of the encoder that these functions use (no short zero, four-byte
sequences, no replacement of bad surrogates) writes every unit as `encodeUnit`
does, except a leading surrogate followed by a trailing one, which becomes the
four bytes of the supplementary code point (`encode_cons_unit`,
`encode_cons_pair`).  Each reader then takes the encoding apart one such chunk
at a time, and `modified_utf8_round_trip` puts the chunks together: the bytes
written are as many as counted, and counting, decoding and hashing them give
back the length, the units and the Java hash of the string.
-/

section Encoder

/-- `is_lead`: a leading (high) surrogate. -/
def isLead (ch : UInt16) : Bool :=
  ch &&& 0xfc00 == 0xd800

/-- `is_trail`: a trailing (low) surrogate. -/
def isTrail (ch : UInt16) : Bool :=
  ch &&& 0xfc00 == 0xdc00

/-- `is_surrogate`: either half of a pair. -/
def isSurrogate (ch : UInt16) : Bool :=
  ch &&& 0xf800 == 0xd800

/-- `is_surrogate_lead`: of a surrogate, whether it is the leading half. -/
def isSurrogateLead (ch : UInt16) : Bool :=
  ch &&& 0x0400 == 0

/-- `get_supplementary`: the code point of a surrogate pair, in `uint32_t`. -/
def getSupplementary (lead trail : UInt16) : UInt32 :=
  let offset : UInt32 := ((0xd800 : UInt32) <<< 10) + 0xdc00 - 0x10000
  (lead.toUInt32 <<< 10) + trail.toUInt32 - offset

/-- `has_trail`, on the units after the current one: the next unit exists and
is a trailing surrogate. -/
def hasTrail : List UInt16 → Bool
  | next :: _ => isTrail next
  | [] => false

/-- The four bytes of a supplementary code point, as `append` receives them. -/
def fourByteSequence (code_point : UInt32) : List UInt8 :=
  [((code_point >>> 18) ||| 0xf0).toUInt8, (((code_point >>> 12) &&& 0x3f) ||| 0x80).toUInt8,
    (((code_point >>> 6) &&& 0x3f) ||| 0x80).toUInt8, ((code_point &&& 0x3f) ||| 0x80).toUInt8]

/-- `ConvertUtf16ToUtf8<kUseShortZero, kUse4ByteSequence, kReplaceBadSurrogates>`:
the bytes passed to `append`, in order. -/
def ConvertUtf16ToUtf8 (kUseShortZero kUse4ByteSequence kReplaceBadSurrogates : Bool) :
    List UInt16 → List UInt8
  | [] => []
  | ch :: rest =>
    if ch < 0x80 && (kUseShortZero || ch != 0) then
      -- One byte.
      ch.toUInt8 :: ConvertUtf16ToUtf8 kUseShortZero kUse4ByteSequence kReplaceBadSurrogates rest
    else if ch < 0x800 then
      -- Two bytes.
      ((ch >>> 6) ||| 0xc0).toUInt8 :: ((ch &&& 0x3f) ||| 0x80).toUInt8 ::
        ConvertUtf16ToUtf8 kUseShortZero kUse4ByteSequence kReplaceBadSurrogates rest
    else if (bif kReplaceBadSurrogates then isSurrogate ch
        else kUse4ByteSequence && isLead ch && hasTrail rest) then
      if kReplaceBadSurrogates && (!isSurrogateLead ch || !hasTrail rest) then
        (0x3f : UInt8) :: ConvertUtf16ToUtf8 kUseShortZero kUse4ByteSequence kReplaceBadSurrogates rest
      else
        -- A valid surrogate pair: `has_trail()` held, so `rest` starts with the
        -- trailing half, which the loop consumes with the leading one.
        match rest with
        | trail :: after =>
          fourByteSequence (getSupplementary ch trail) ++
            ConvertUtf16ToUtf8 kUseShortZero kUse4ByteSequence kReplaceBadSurrogates after
        | [] => []
    else
      -- Three bytes.
      ((ch >>> 12) ||| 0xe0).toUInt8 :: (((ch >>> 6) &&& 0x3f) ||| 0x80).toUInt8 ::
        ((ch &&& 0x3f) ||| 0x80).toUInt8 ::
          ConvertUtf16ToUtf8 kUseShortZero kUse4ByteSequence kReplaceBadSurrogates rest

/-- `CountModifiedUtf8BytesInUtf16`: the number of `append` calls of the
Modified UTF-8 instance of the encoder. -/
def CountModifiedUtf8BytesInUtf16 (chars : List UInt16) : Nat :=
  (ConvertUtf16ToUtf8 false true false chars).length

/-- `ConvertUtf16ToModifiedUtf8(utf8_out, byte_count, utf16_in, char_count)`:
the bytes written.  When the byte count equals the unit count every unit is
taken for ASCII and truncated to a byte. -/
def ConvertUtf16ToModifiedUtf8 (byte_count : Nat) (utf16_in : List UInt16) : List UInt8 :=
  if byte_count = utf16_in.length then
    -- Common case where all characters are ASCII.
    utf16_in.map UInt16.toUInt8
  else
    ConvertUtf16ToUtf8 false true false utf16_in

end Encoder

section Readers

/-- The loop of `CountModifiedUtf8Chars(utf8, byte_count)` from `utf8` on, with
`len` the units counted so far.  The lead byte alone says how far to skip. -/
def CountModifiedUtf8CharsLoop (utf8_end utf8 : List UInt8) (len : Nat) : Nat :=
  if utf8_end.length < utf8.length then
    let ic := (nextByte utf8).1
    if ic &&& 0x80 = 0 then
      -- One-byte encoding.
      CountModifiedUtf8CharsLoop utf8_end (utf8.drop 1) (len + 1)
    else if ic &&& 0x20 = 0 then
      -- Two-byte encoding.
      CountModifiedUtf8CharsLoop utf8_end (utf8.drop 2) (len + 1)
    else if ic &&& 0x10 = 0 then
      -- Three-byte encoding.
      CountModifiedUtf8CharsLoop utf8_end (utf8.drop 3) (len + 1)
    else
      -- Four-byte encoding: a surrogate pair, two units.
      CountModifiedUtf8CharsLoop utf8_end (utf8.drop 4) (len + 2)
  else
    len
termination_by utf8.length
decreasing_by all_goals (simp only [List.length_drop]; omega)

/-- `CountModifiedUtf8Chars(utf8, byte_count)`: the UTF-16 units of the first
`byte_count` bytes; the overload without a count passes `strlen(utf8)`. -/
def CountModifiedUtf8Chars (utf8 : List UInt8) (byte_count : Nat) : Nat :=
  CountModifiedUtf8CharsLoop (utf8.drop byte_count) utf8 0

/-- The loop for strings with non-ASCII characters of the sized
`ConvertModifiedUtf8ToUtf16`, from `p` on to `in_end`. -/
def ConvertModifiedUtf8ToUtf16Loop (in_end p : List UInt8) : List UInt16 :=
  if in_end.length < p.length then
    let ch := GetUtf16FromUtf8 p
    let leading := GetLeadingUtf16Char ch.1
    let trailing := GetTrailingUtf16Char ch.1
    if trailing ≠ 0 then
      leading :: trailing :: ConvertModifiedUtf8ToUtf16Loop in_end ch.2
    else
      leading :: ConvertModifiedUtf8ToUtf16Loop in_end ch.2
  else
    []
termination_by p.length
decreasing_by
  all_goals exact length_GetUtf16FromUtf8_lt (List.ne_nil_of_length_pos (by omega))

/-- The overload `ConvertModifiedUtf8ToUtf16(utf16_data_out, out_chars,
utf8_data_in, in_bytes)`: the units written.  When as many units as bytes are
expected, every byte is copied as a unit. -/
def ConvertModifiedUtf8ToUtf16Sized (out_chars : Nat) (utf8_data_in : List UInt8)
    (in_bytes : Nat) : List UInt16 :=
  if out_chars = in_bytes then
    -- Common case where all characters are ASCII.
    (utf8_data_in.take in_bytes).map UInt8.toUInt16
  else
    ConvertModifiedUtf8ToUtf16Loop (utf8_data_in.drop in_bytes) utf8_data_in

/-- The loop of `ComputeUtf16HashFromModifiedUtf8`, with `utf16_length` units
still to hash.  A pair that needs one more unit than remain would make
`--utf16_length` wrap around (the loop's `DCHECK`): no result. -/
def ComputeUtf16HashFromModifiedUtf8Loop (hash : UInt32) (utf8 : List UInt8) :
    Nat → Option UInt32
  | 0 => some hash
  | utf16_length + 1 =>
    let pair := GetUtf16FromUtf8 utf8
    let first := GetLeadingUtf16Char pair.1
    let hash := hash * 31 + first.toUInt32
    let second := GetTrailingUtf16Char pair.1
    if second ≠ 0 then
      match utf16_length with
      | 0 => none
      | remaining + 1 =>
        ComputeUtf16HashFromModifiedUtf8Loop (hash * 31 + second.toUInt32) pair.2 remaining
    else
      ComputeUtf16HashFromModifiedUtf8Loop hash pair.2 utf16_length

/-- `ComputeUtf16HashFromModifiedUtf8(utf8, utf16_length)`, read as `int32_t`. -/
def ComputeUtf16HashFromModifiedUtf8 (utf8 : List UInt8) (utf16_length : Nat) : Option Int :=
  (ComputeUtf16HashFromModifiedUtf8Loop 0 utf8 utf16_length).map fun hash => toInt32 hash.toNat

/-- Java's `String.hashCode`: `h = 31 * h + c` over the code units, on
integers, read as an `int` at the end. -/
def javaStringHash (units : List UInt16) : Int :=
  toInt32 (units.foldl (fun hash unit => 31 * hash + unit.toNat) 0)

end Readers

section Bytes

/-!
## The bytes of each form

The masks and shifts of the encoder as arithmetic on the unit: a surrogate
test reads the unit's top six bits, and each byte `append` receives is a lead
or continuation prefix plus a payload, as `encodeUnit` writes it.
-/

theorem isLead_iff (ch : UInt16) : isLead ch = true ↔ ch.toNat / 0x400 = 0x36 := by
  have bound : ch.toNat < 0x10000 := ch.toNat_lt_size
  have mask := and_mask_eq ch.toNat 10 6
  simp only [isLead, beq_iff_eq, ← UInt16.toNat_inj, UInt16.toNat_and, UInt16.reduceToNat]
  rw [show (64512 : Nat) = (2 ^ 6 - 1) * 2 ^ 10 from rfl, mask]
  omega

theorem isTrail_iff (ch : UInt16) : isTrail ch = true ↔ ch.toNat / 0x400 = 0x37 := by
  have bound : ch.toNat < 0x10000 := ch.toNat_lt_size
  have mask := and_mask_eq ch.toNat 10 6
  simp only [isTrail, beq_iff_eq, ← UInt16.toNat_inj, UInt16.toNat_and, UInt16.reduceToNat]
  rw [show (64512 : Nat) = (2 ^ 6 - 1) * 2 ^ 10 from rfl, mask]
  omega

theorem toUInt8_continuation (ch : UInt16) :
    ((ch &&& 0x3f) ||| 0x80).toUInt8 = UInt8.ofNat (0x80 + ch.toNat % 0x40) := by
  rw [← UInt8.toNat_inj, UInt16.toNat_toUInt8, UInt16.toNat_or, UInt16.toNat_and,
    UInt8.toNat_ofNat']
  simp only [UInt16.reduceToNat]
  rewrite [show (63 : Nat) = 2 ^ 6 - 1 from rfl, Nat.and_two_pow_sub_one_eq_mod,
    show (128 : Nat) = 2 * 2 ^ 6 from rfl, or_lead_eq_add (Nat.mod_lt ch.toNat (Nat.two_pow_pos 6))]
  omega

theorem toUInt8_middle (ch : UInt16) :
    (((ch >>> 6) &&& 0x3f) ||| 0x80).toUInt8 = UInt8.ofNat (0x80 + ch.toNat / 0x40 % 0x40) := by
  rw [← UInt8.toNat_inj, UInt16.toNat_toUInt8, UInt16.toNat_or, UInt16.toNat_and,
    UInt16.toNat_shiftRight, UInt8.toNat_ofNat']
  simp only [UInt16.reduceToNat, Nat.reduceMod, Nat.shiftRight_eq_div_pow]
  rewrite [show (63 : Nat) = 2 ^ 6 - 1 from rfl, Nat.and_two_pow_sub_one_eq_mod,
    show (128 : Nat) = 2 * 2 ^ 6 from rfl,
    or_lead_eq_add (Nat.mod_lt (ch.toNat / 2 ^ 6) (Nat.two_pow_pos 6))]
  omega

theorem toUInt8_twoByteLead {ch : UInt16} (small : ch.toNat < 0x800) :
    ((ch >>> 6) ||| 0xc0).toUInt8 = UInt8.ofNat (0xc0 + ch.toNat / 0x40) := by
  rw [← UInt8.toNat_inj, UInt16.toNat_toUInt8, UInt16.toNat_or, UInt16.toNat_shiftRight,
    UInt8.toNat_ofNat']
  simp only [UInt16.reduceToNat, Nat.reduceMod, Nat.shiftRight_eq_div_pow]
  rewrite [show (192 : Nat) = 6 * 2 ^ 5 from rfl,
    or_lead_eq_add (by omega : ch.toNat / 2 ^ 6 < 2 ^ 5)]
  omega

theorem toUInt8_threeByteLead (ch : UInt16) :
    ((ch >>> 12) ||| 0xe0).toUInt8 = UInt8.ofNat (0xe0 + ch.toNat / 0x1000) := by
  have bound : ch.toNat < 0x10000 := ch.toNat_lt_size
  rw [← UInt8.toNat_inj, UInt16.toNat_toUInt8, UInt16.toNat_or, UInt16.toNat_shiftRight,
    UInt8.toNat_ofNat']
  simp only [UInt16.reduceToNat, Nat.reduceMod, Nat.shiftRight_eq_div_pow]
  rewrite [show (224 : Nat) = 14 * 2 ^ 4 from rfl,
    or_lead_eq_add (by omega : ch.toNat / 2 ^ 12 < 2 ^ 4)]
  omega

theorem toUInt8_eq_ofNat (ch : UInt16) : ch.toUInt8 = UInt8.ofNat ch.toNat := by
  rw [← UInt8.toNat_inj, UInt16.toNat_toUInt8, UInt8.toNat_ofNat']

end Bytes

section Chunks

/-!
## The encoder, one chunk at a time

The Modified UTF-8 instance of `ConvertUtf16ToUtf8` writes a unit as
`encodeUnit` does unless it starts a valid surrogate pair, and a valid pair as
the four bytes of its code point.  `encode_induction` packages the loop's
recursion along these two cases for the readers' proofs.
-/

/-- The one-byte test of the instance without a short zero. -/
theorem oneByteTest_iff (ch : UInt16) :
    (ch < 0x80 && (false || ch != 0)) = true ↔ ch.toNat ≠ 0 ∧ ch.toNat < 0x80 := by
  simp only [Bool.false_or, Bool.and_eq_true, decide_eq_true_eq, bne_iff_ne, ne_eq,
    UInt16.lt_iff_toNat_lt, ← UInt16.toNat_inj, UInt16.reduceToNat, UInt16.toNat_zero]
  exact and_comm

theorem twoByteTest_iff (ch : UInt16) : ch < 0x800 ↔ ch.toNat < 0x800 :=
  UInt16.lt_iff_toNat_lt

/-- A unit that does not start a valid pair is written as `encodeUnit` writes it. -/
theorem encode_cons_unit {ch : UInt16} {rest : List UInt16}
    (notPair : ¬(isLead ch = true ∧ hasTrail rest = true)) :
    ConvertUtf16ToUtf8 false true false (ch :: rest) =
      encodeUnit ch ++ ConvertUtf16ToUtf8 false true false rest := by
  have bound : ch.toNat < 0x10000 := ch.toNat_lt_size
  -- The equations split on whether a unit follows `ch`; the branches taken here
  -- do not look at it.
  rw [ConvertUtf16ToUtf8.eq_def, encodeUnit]
  dsimp only
  by_cases single : ch.toNat ≠ 0 ∧ ch.toNat < 0x80
  · rw [if_pos ((oneByteTest_iff ch).mpr single), if_pos single, toUInt8_eq_ofNat]
    rfl
  rw [if_neg (mt (oneByteTest_iff ch).mp single), if_neg single]
  by_cases double : ch.toNat < 0x800
  · rw [if_pos ((twoByteTest_iff ch).mpr double), if_pos double, toUInt8_twoByteLead double,
      toUInt8_continuation]
    rfl
  · -- A three-byte unit, a lone surrogate included.
    have notPairTest : ¬((bif false then isSurrogate ch
        else true && isLead ch && hasTrail rest) = true) := by
      simpa using notPair
    rw [if_neg (mt (twoByteTest_iff ch).mp double), if_neg double, if_neg notPairTest,
      toUInt8_threeByteLead, toUInt8_middle, toUInt8_continuation]
    rfl

/-- A valid pair is written as the four bytes of its code point. -/
theorem encode_cons_pair {lead trail : UInt16} (after : List UInt16)
    (leading : isLead lead = true) (trailing : isTrail trail = true) :
    ConvertUtf16ToUtf8 false true false (lead :: trail :: after) =
      fourByteSequence (getSupplementary lead trail) ++ ConvertUtf16ToUtf8 false true false after := by
  have high := (isLead_iff lead).mp leading
  have notSingle : ¬(lead.toNat ≠ 0 ∧ lead.toNat < 0x80) := by omega
  have pairTest : (bif false then isSurrogate lead
      else true && isLead lead && hasTrail (trail :: after)) = true := by
    simp [hasTrail, leading, trailing]
  rw [ConvertUtf16ToUtf8, if_neg (mt (oneByteTest_iff lead).mp notSingle),
    if_neg (mt (twoByteTest_iff lead).mp (by omega)), if_pos pairTest]
  rfl

/-- U+1F600 is `D83D DE00` in UTF-16 and `F0 9F 98 80` in UTF-8. -/
example : ConvertUtf16ToUtf8 false true false [0xd83d, 0xde00] = [0xf0, 0x9f, 0x98, 0x80] := by
  decide

/-- Induction along the encoder's chunks: a unit that does not start a valid
pair, or a valid pair. -/
@[elab_as_elim]
theorem encode_induction {motive : List UInt16 → Prop} (nil : motive [])
    (unit : ∀ ch rest, ¬(isLead ch = true ∧ hasTrail rest = true) → motive rest →
      motive (ch :: rest))
    (pair : ∀ lead trail after, isLead lead = true → isTrail trail = true → motive after →
      motive (lead :: trail :: after)) :
    ∀ units, motive units
  | [] => nil
  | ch :: rest =>
    if startsPair : isLead ch = true ∧ hasTrail rest = true then
      match rest, startsPair with
      | trail :: after, ⟨leading, trailing⟩ =>
        pair ch trail after leading trailing (encode_induction nil unit pair after)
    else
      unit ch rest startsPair (encode_induction nil unit pair rest)

end Chunks

section FourBytes

/-!
## The four-byte form of a surrogate pair

The encoder writes the code point of a valid pair in four bytes, and
`GetUtf16FromUtf8` splits the code point it reads back into a leading and a
trailing surrogate through the offsets `0xd7c0` and `0xdc00`.
-/

/-- The code point of a valid pair: `0x10000` plus the ten payload bits of each
half. -/
theorem toNat_getSupplementary {lead trail : UInt16} (leading : isLead lead = true)
    (trailing : isTrail trail = true) :
    (getSupplementary lead trail).toNat = 0x10000 + lead.toNat % 0x400 * 0x400 + trail.toNat % 0x400 := by
  have high := (isLead_iff lead).mp leading
  have low := (isTrail_iff trail).mp trailing
  have offset : ((0xd800 : UInt32) <<< 10) + 0xdc00 - 0x10000 = 0x35fdc00 := by decide
  have sum : ((lead.toUInt32 <<< 10) + trail.toUInt32).toNat = lead.toNat * 0x400 + trail.toNat := by
    rw [UInt32.toNat_add, UInt32.toNat_shiftLeft, UInt16.toNat_toUInt32, UInt16.toNat_toUInt32]
    simp only [UInt32.reduceToNat, Nat.reduceMod, Nat.shiftLeft_eq]
    omega
  have noBorrow : (0x35fdc00 : UInt32) ≤ (lead.toUInt32 <<< 10) + trail.toUInt32 := by
    rw [UInt32.le_iff_toNat_le, sum]
    simp only [UInt32.reduceToNat]
    omega
  rw [getSupplementary, offset, UInt32.toNat_sub_of_le _ _ noBorrow, sum]
  simp only [UInt32.reduceToNat]
  omega

theorem toUInt8_fourByteLead {code_point : UInt32} (small : code_point.toNat < 0x200000) :
    ((code_point >>> 18) ||| 0xf0).toUInt8 = UInt8.ofNat (0xf0 + code_point.toNat / 0x40000) := by
  rw [← UInt8.toNat_inj, UInt32.toNat_toUInt8, UInt32.toNat_or, UInt32.toNat_shiftRight,
    UInt8.toNat_ofNat']
  simp only [UInt32.reduceToNat, Nat.reduceMod, Nat.shiftRight_eq_div_pow]
  rewrite [show (240 : Nat) = 15 * 2 ^ 4 from rfl,
    or_lead_eq_add (by omega : code_point.toNat / 2 ^ 18 < 2 ^ 4)]
  omega

theorem toUInt8_shifted_continuation (code_point shift : UInt32) :
    (((code_point >>> shift) &&& 0x3f) ||| 0x80).toUInt8 =
      UInt8.ofNat (0x80 + code_point.toNat / 2 ^ (shift.toNat % 32) % 0x40) := by
  rw [← UInt8.toNat_inj, UInt32.toNat_toUInt8, UInt32.toNat_or, UInt32.toNat_and,
    UInt32.toNat_shiftRight, UInt8.toNat_ofNat']
  simp only [UInt32.reduceToNat, Nat.shiftRight_eq_div_pow]
  rewrite [show (63 : Nat) = 2 ^ 6 - 1 from rfl, Nat.and_two_pow_sub_one_eq_mod,
    show (128 : Nat) = 2 * 2 ^ 6 from rfl,
    or_lead_eq_add (Nat.mod_lt (code_point.toNat / 2 ^ (shift.toNat % 32)) (Nat.two_pow_pos 6))]
  omega

theorem toUInt8_low_continuation (code_point : UInt32) :
    ((code_point &&& 0x3f) ||| 0x80).toUInt8 = UInt8.ofNat (0x80 + code_point.toNat % 0x40) := by
  rw [← UInt8.toNat_inj, UInt32.toNat_toUInt8, UInt32.toNat_or, UInt32.toNat_and,
    UInt8.toNat_ofNat']
  simp only [UInt32.reduceToNat]
  rewrite [show (63 : Nat) = 2 ^ 6 - 1 from rfl, Nat.and_two_pow_sub_one_eq_mod,
    show (128 : Nat) = 2 * 2 ^ 6 from rfl,
    or_lead_eq_add (Nat.mod_lt code_point.toNat (Nat.two_pow_pos 6))]
  omega

/-- The four bytes of a code point below `2 ^ 21`: a lead byte with its top
three bits, and three continuation bytes of six bits each. -/
theorem fourByteSequence_eq {code_point : UInt32} (small : code_point.toNat < 0x200000) :
    fourByteSequence code_point =
      [UInt8.ofNat (0xf0 + code_point.toNat / 0x40000),
        UInt8.ofNat (0x80 + code_point.toNat / 0x1000 % 0x40),
        UInt8.ofNat (0x80 + code_point.toNat / 0x40 % 0x40),
        UInt8.ofNat (0x80 + code_point.toNat % 0x40)] := by
  rw [fourByteSequence, toUInt8_fourByteLead small, toUInt8_shifted_continuation,
    toUInt8_shifted_continuation, toUInt8_low_continuation]
  rfl

theorem fourByteLead {payload : Nat} (small : payload < 0x8) :
    (0xf0 + payload) &&& 0x80 ≠ 0 ∧ (0xf0 + payload) &&& 0x20 ≠ 0 ∧
      (0xf0 + payload) &&& 0x10 ≠ 0 ∧ (0xf0 + payload) &&& 0x0f = payload := by
  revert payload
  decide

/-- `GetUtf16FromUtf8` on a four-byte sequence: the code point's bits above the
lowest ten, offset by `0xd7c0`, in the low half, and its lowest ten bits,
offset by `0xdc00`, in the high half. -/
theorem GetUtf16FromUtf8_fourBytes {one two three four : UInt8} (rest : List UInt8)
    {top high middle low : Nat} (topBound : top < 0x8) (highBound : high < 0x40)
    (middleBound : middle < 0x40) (lowBound : low < 0x40) (oneIs : one.toNat = 0xf0 + top)
    (twoIs : two.toNat = 0x80 + high) (threeIs : three.toNat = 0x80 + middle)
    (fourIs : four.toNat = 0x80 + low) :
    GetUtf16FromUtf8 (one :: two :: three :: four :: rest) =
      (UInt32.ofNat (word32
        (((top * 0x40000 + high * 0x1000 + middle * 0x40 + low) / 0x400 + 0xd7c0) % 0x10000)
        ((top * 0x40000 + high * 0x1000 + middle * 0x40 + low) % 0x400 + 0xdc00)), rest) := by
  obtain ⟨notOne, notTwo, notThree, topBits⟩ := fourByteLead topBound
  have highBits := continuationByte highBound
  have middleBits := continuationByte middleBound
  have lowBits := continuationByte lowBound
  simp only [GetUtf16FromUtf8, nextByte_cons, byte_and_eq_zero_iff, oneIs, UInt8.reduceToNat,
    notOne, notTwo, notThree, if_false, Prod.mk.injEq, and_true]
  rw [← UInt32.toNat_inj]
  simp only [UInt32.toNat_or, UInt32.toNat_and, UInt32.toNat_shiftLeft, UInt32.toNat_shiftRight,
    UInt32.toNat_add, UInt8.toNat_toUInt32, oneIs, twoIs, threeIs, fourIs, UInt32.reduceToNat,
    topBits, highBits, middleBits, lowBits, UInt32.toNat_ofNat']
  -- The four payloads `|`-ed at their places are the code point.
  have codePoint : (top <<< (18 % 32) % 2 ^ 32 ||| high <<< (12 % 32) % 2 ^ 32 |||
      middle <<< (6 % 32) % 2 ^ 32 ||| low) =
      top * 0x40000 + high * 0x1000 + middle * 0x40 + low := by
    simp only [Nat.reduceMod, Nat.shiftLeft_eq]
    rewrite [Nat.mod_eq_of_lt (by omega : top * 2 ^ 18 < 2 ^ 32),
      Nat.mod_eq_of_lt (by omega : high * 2 ^ 12 < 2 ^ 32),
      Nat.mod_eq_of_lt (by omega : middle * 2 ^ 6 < 2 ^ 32),
      @or_eq_add_of_mod_eq_zero (top * 2 ^ 18) (high * 2 ^ 12) 18 (by omega) (by omega),
      @or_eq_add_of_mod_eq_zero (top * 2 ^ 18 + high * 2 ^ 12) (middle * 2 ^ 6) 12 (by omega)
        (by omega),
      @or_eq_add_of_mod_eq_zero (top * 2 ^ 18 + high * 2 ^ 12 + middle * 2 ^ 6) low 6 (by omega)
        (by omega)]
    omega
  have small : top * 0x40000 + high * 0x1000 + middle * 0x40 + low < 0x200000 := by omega
  rw [codePoint]
  generalize top * 0x40000 + high * 0x1000 + middle * 0x40 + low = code_point at small
  -- The two halves: `& 0xffff` and `& 0x3ff` keep low bits, and neither sum
  -- overflows.
  simp only [Nat.reduceMod]
  have leading : (code_point >>> 10 + 55232) % 2 ^ 32 &&& 65535 =
      (code_point / 1024 + 55232) % 65536 := by
    rw [Nat.shiftRight_eq_div_pow, Nat.mod_eq_of_lt (by omega),
      show (65535 : Nat) = 2 ^ 16 - 1 from rfl, Nat.and_two_pow_sub_one_eq_mod]
  have trailing : (((code_point &&& 1023) + 56320) % 2 ^ 32) <<< 16 % 2 ^ 32 =
      (code_point % 1024 + 56320) <<< 16 := by
    have lowBits : (code_point &&& 1023) = code_point % 1024 := by
      rw [show (1023 : Nat) = 2 ^ 10 - 1 from rfl, Nat.and_two_pow_sub_one_eq_mod]
    rw [lowBits, Nat.mod_eq_of_lt (by omega : code_point % 1024 + 56320 < 2 ^ 32),
      Nat.mod_eq_of_lt (by rw [Nat.shiftLeft_eq]; omega)]
  have leadingBound : (code_point / 1024 + 55232) % 65536 < 2 ^ 16 := by omega
  rw [leading, trailing, or_shiftLeft_sixteen leadingBound,
    Nat.mod_eq_of_lt (word32_lt leadingBound (by omega))]

theorem GetLeadingUtf16Char_word32 {low high : Nat} (lowBound : low < 2 ^ 16)
    (highBound : high < 2 ^ 16) :
    GetLeadingUtf16Char (UInt32.ofNat (word32 low high)) = UInt16.ofNat low := by
  rw [GetLeadingUtf16Char, ← UInt16.toNat_inj, UInt32.toNat_toUInt16, UInt32.toNat_and,
    UInt32.toNat_ofNat', Nat.mod_eq_of_lt (word32_lt lowBound highBound), UInt16.toNat_ofNat']
  simp only [UInt32.reduceToNat]
  rw [show (65535 : Nat) = 2 ^ 16 - 1 from rfl, Nat.and_two_pow_sub_one_eq_mod, word32]
  omega

theorem GetTrailingUtf16Char_word32 {low high : Nat} (lowBound : low < 2 ^ 16)
    (highBound : high < 2 ^ 16) :
    GetTrailingUtf16Char (UInt32.ofNat (word32 low high)) = UInt16.ofNat high := by
  rw [GetTrailingUtf16Char, ← UInt16.toNat_inj, UInt32.toNat_toUInt16, UInt32.toNat_shiftRight,
    UInt32.toNat_ofNat', Nat.mod_eq_of_lt (word32_lt lowBound highBound), UInt16.toNat_ofNat']
  simp only [UInt32.reduceToNat, Nat.reduceMod, Nat.shiftRight_eq_div_pow, word32]
  omega

/-- Decoding the four bytes of a valid pair reads the pair back: the leading
half in the low 16 bits, the trailing one in the high 16. -/
theorem GetUtf16FromUtf8_fourByteSequence {lead trail : UInt16} (leading : isLead lead = true)
    (trailing : isTrail trail = true) (rest : List UInt8) :
    GetUtf16FromUtf8 (fourByteSequence (getSupplementary lead trail) ++ rest) =
      (UInt32.ofNat (word32 lead.toNat trail.toNat), rest) := by
  have codePoint := toNat_getSupplementary leading trailing
  have high := (isLead_iff lead).mp leading
  have low := (isTrail_iff trail).mp trailing
  generalize (getSupplementary lead trail) = code_point at codePoint ⊢
  rw [fourByteSequence_eq (by omega), List.cons_append, List.cons_append, List.cons_append,
    List.cons_append, List.nil_append,
    GetUtf16FromUtf8_fourBytes rest (by omega : code_point.toNat / 0x40000 < 0x8)
      (by omega : code_point.toNat / 0x1000 % 0x40 < 0x40)
      (by omega : code_point.toNat / 0x40 % 0x40 < 0x40) (by omega : code_point.toNat % 0x40 < 0x40)
      (toNat_ofNat_byte (by omega)) (toNat_ofNat_byte (by omega)) (toNat_ofNat_byte (by omega))
      (toNat_ofNat_byte (by omega))]
  -- The digits put back together are the code point, `0x10000` past the pair's
  -- twenty payload bits.
  have digits : code_point.toNat / 0x40000 * 0x40000 + code_point.toNat / 0x1000 % 0x40 * 0x1000 +
      code_point.toNat / 0x40 % 0x40 * 0x40 + code_point.toNat % 0x40 = code_point.toNat := by
    omega
  have leadingHalf : (code_point.toNat / 0x400 + 0xd7c0) % 0x10000 = lead.toNat := by omega
  have trailingHalf : code_point.toNat % 0x400 + 0xdc00 = trail.toNat := by omega
  rw [digits, leadingHalf, trailingHalf]

end FourBytes

section ReadingEncodings

/-!
## The readers on an encoded string

Each reader, started at the encoder's bytes followed by anything, takes one
chunk (an `encodeUnit` or the four bytes of a pair) per iteration.  The end
pointer is the suffix after the encoding, or any suffix at most as long, so
the loop does not stop inside the encoding.
-/

variable {utf8_end more : List UInt8}

theorem length_lt_length_append {chunk : List UInt8} (nonempty : chunk ≠ [])
    (before : utf8_end.length ≤ more.length) : utf8_end.length < (chunk ++ more).length := by
  have positive : 0 < chunk.length := List.length_pos_iff.mpr nonempty
  rw [List.length_append]
  omega

theorem encodeUnit_ne_nil (ch : UInt16) : encodeUnit ch ≠ [] := by
  rw [encodeUnit]
  split
  · exact List.cons_ne_nil _ _
  split <;> exact List.cons_ne_nil _ _

/-- `CountModifiedUtf8Chars` skips an encoded unit by its lead byte and counts
one unit. -/
theorem CountModifiedUtf8CharsLoop_encodeUnit (ch : UInt16) (len : Nat)
    (before : utf8_end.length ≤ more.length) :
    CountModifiedUtf8CharsLoop utf8_end (encodeUnit ch ++ more) len =
      CountModifiedUtf8CharsLoop utf8_end more (len + 1) := by
  have bound : ch.toNat < 0x10000 := ch.toNat_lt_size
  rw [CountModifiedUtf8CharsLoop, if_pos (length_lt_length_append (encodeUnit_ne_nil ch) before),
    encodeUnit]
  split
  · have lead := oneByteLead (by omega : ch.toNat < 0x80)
    simp only [List.cons_append, List.nil_append, nextByte_cons, byte_and_eq_zero_iff,
      toNat_ofNat_byte (by omega : ch.toNat < 0x100), UInt8.reduceToNat, lead, if_true,
      List.drop_succ_cons, List.drop_zero]
  split
  · obtain ⟨notOne, isTwo, -⟩ := twoByteLead (by omega : ch.toNat / 0x40 < 0x20)
    simp only [List.cons_append, List.nil_append, nextByte_cons, byte_and_eq_zero_iff,
      toNat_ofNat_byte (by omega : 0xc0 + ch.toNat / 0x40 < 0x100), UInt8.reduceToNat, notOne,
      isTwo, if_false, if_true, List.drop_succ_cons, List.drop_zero]
  · obtain ⟨notOne, notTwo, isThree, -⟩ := threeByteLead (by omega : ch.toNat / 0x1000 < 0x10)
    simp only [List.cons_append, List.nil_append, nextByte_cons, byte_and_eq_zero_iff,
      toNat_ofNat_byte (by omega : 0xe0 + ch.toNat / 0x1000 < 0x100), UInt8.reduceToNat, notOne,
      notTwo, isThree, if_false, if_true, List.drop_succ_cons, List.drop_zero]

/-- `CountModifiedUtf8Chars` skips the four bytes of a pair and counts two
units. -/
theorem CountModifiedUtf8CharsLoop_fourByteSequence {lead trail : UInt16}
    (leading : isLead lead = true) (trailing : isTrail trail = true) (len : Nat)
    (before : utf8_end.length ≤ more.length) :
    CountModifiedUtf8CharsLoop utf8_end (fourByteSequence (getSupplementary lead trail) ++ more) len =
      CountModifiedUtf8CharsLoop utf8_end more (len + 2) := by
  have codePoint := toNat_getSupplementary leading trailing
  have high := (isLead_iff lead).mp leading
  have low := (isTrail_iff trail).mp trailing
  generalize (getSupplementary lead trail) = code_point at codePoint ⊢
  obtain ⟨notOne, notTwo, notThree, -⟩ := fourByteLead (by omega : code_point.toNat / 0x40000 < 0x8)
  rw [CountModifiedUtf8CharsLoop, fourByteSequence_eq (by omega),
    if_pos (length_lt_length_append (List.cons_ne_nil _ _) before)]
  simp only [List.cons_append, List.nil_append, nextByte_cons, byte_and_eq_zero_iff,
    toNat_ofNat_byte (by omega : 0xf0 + code_point.toNat / 0x40000 < 0x100), UInt8.reduceToNat,
    notOne, notTwo, notThree, if_false, List.drop_succ_cons, List.drop_zero]

/-- Counting an encoded string, up to the bytes after it, counts its units. -/
theorem CountModifiedUtf8CharsLoop_encode (units : List UInt16) (len : Nat) :
    CountModifiedUtf8CharsLoop more (ConvertUtf16ToUtf8 false true false units ++ more) len =
      len + units.length := by
  induction units using encode_induction generalizing len with
  | nil =>
    rw [ConvertUtf16ToUtf8, List.nil_append, CountModifiedUtf8CharsLoop, if_neg (lt_irrefl _)]
    rfl
  | unit ch rest notPair inductionHypothesis =>
    rw [encode_cons_unit notPair, List.append_assoc,
      CountModifiedUtf8CharsLoop_encodeUnit ch len (by simp), inductionHypothesis, List.length_cons]
    omega
  | pair lead trail after leading trailing inductionHypothesis =>
    rw [encode_cons_pair after leading trailing, List.append_assoc,
      CountModifiedUtf8CharsLoop_fourByteSequence leading trailing len (by simp),
      inductionHypothesis, List.length_cons, List.length_cons]
    omega

theorem ConvertModifiedUtf8ToUtf16Loop_encodeUnit (ch : UInt16)
    (before : utf8_end.length ≤ more.length) :
    ConvertModifiedUtf8ToUtf16Loop utf8_end (encodeUnit ch ++ more) =
      ch :: ConvertModifiedUtf8ToUtf16Loop utf8_end more := by
  rw [ConvertModifiedUtf8ToUtf16Loop,
    if_pos (length_lt_length_append (encodeUnit_ne_nil ch) before)]
  simp only [GetUtf16FromUtf8_encodeUnit, GetLeadingUtf16Char_toUInt32,
    GetTrailingUtf16Char_toUInt32, ne_eq, not_true_eq_false, if_false]

theorem ConvertModifiedUtf8ToUtf16Loop_fourByteSequence {lead trail : UInt16}
    (leading : isLead lead = true) (trailing : isTrail trail = true)
    (before : utf8_end.length ≤ more.length) :
    ConvertModifiedUtf8ToUtf16Loop utf8_end (fourByteSequence (getSupplementary lead trail) ++ more) =
      lead :: trail :: ConvertModifiedUtf8ToUtf16Loop utf8_end more := by
  have low := (isTrail_iff trail).mp trailing
  have trailNonzero : trail ≠ 0 := fun isZero => by
    rw [isZero, UInt16.toNat_zero] at low
    omega
  rw [ConvertModifiedUtf8ToUtf16Loop,
    if_pos (length_lt_length_append (by simp [fourByteSequence]) before)]
  simp only [GetUtf16FromUtf8_fourByteSequence leading trailing,
    GetLeadingUtf16Char_word32 lead.toNat_lt trail.toNat_lt,
    GetTrailingUtf16Char_word32 lead.toNat_lt trail.toNat_lt, UInt16.ofNat_toNat, ne_eq,
    trailNonzero, not_false_eq_true, if_true]

/-- Decoding an encoded string, up to the bytes after it, gives back its units. -/
theorem ConvertModifiedUtf8ToUtf16Loop_encode (units : List UInt16) :
    ConvertModifiedUtf8ToUtf16Loop more (ConvertUtf16ToUtf8 false true false units ++ more) =
      units := by
  induction units using encode_induction with
  | nil =>
    rw [ConvertUtf16ToUtf8, List.nil_append, ConvertModifiedUtf8ToUtf16Loop,
      if_neg (lt_irrefl _)]
  | unit ch rest notPair inductionHypothesis =>
    rw [encode_cons_unit notPair, List.append_assoc,
      ConvertModifiedUtf8ToUtf16Loop_encodeUnit ch (by simp), inductionHypothesis]
  | pair lead trail after leading trailing inductionHypothesis =>
    rw [encode_cons_pair after leading trailing, List.append_assoc,
      ConvertModifiedUtf8ToUtf16Loop_fourByteSequence leading trailing (by simp),
      inductionHypothesis]

/-- The hash loop over an encoded string, started with as many units as it
holds, steps through the units one at a time. -/
theorem ComputeUtf16HashFromModifiedUtf8Loop_encode (units : List UInt16) (hash : UInt32) :
    ComputeUtf16HashFromModifiedUtf8Loop hash (ConvertUtf16ToUtf8 false true false units ++ more)
        units.length =
      some (units.foldl (fun hash unit => hash * 31 + unit.toUInt32) hash) := by
  induction units using encode_induction generalizing hash with
  | nil => rfl
  | unit ch rest notPair inductionHypothesis =>
    rw [encode_cons_unit notPair, List.append_assoc, List.length_cons,
      ComputeUtf16HashFromModifiedUtf8Loop.eq_def]
    dsimp only
    simp only [GetUtf16FromUtf8_encodeUnit, GetLeadingUtf16Char_toUInt32,
      GetTrailingUtf16Char_toUInt32, ne_eq, not_true_eq_false, if_false, List.foldl_cons]
    exact inductionHypothesis _
  | pair lead trail after leading trailing inductionHypothesis =>
    have low := (isTrail_iff trail).mp trailing
    have trailNonzero : trail ≠ 0 := fun isZero => by
      rw [isZero, UInt16.toNat_zero] at low
      omega
    rw [encode_cons_pair after leading trailing, List.append_assoc, List.length_cons,
      List.length_cons, ComputeUtf16HashFromModifiedUtf8Loop.eq_def]
    dsimp only
    simp only [GetUtf16FromUtf8_fourByteSequence leading trailing,
      GetLeadingUtf16Char_word32 lead.toNat_lt trail.toNat_lt,
      GetTrailingUtf16Char_word32 lead.toNat_lt trail.toNat_lt, UInt16.ofNat_toNat, ne_eq,
      trailNonzero, not_false_eq_true, if_true, List.foldl_cons]
    exact inductionHypothesis _

/-- The `uint32_t` steps `hash * 31 + unit` agree, modulo `2 ^ 32`, with the
same steps on integers from a congruent start. -/
theorem foldl_hash_emod (units : List UInt16) {hash : UInt32} {start : Int}
    (congruent : (hash.toNat : Int) % 2 ^ 32 = start % 2 ^ 32) :
    ((units.foldl (fun hash unit => hash * 31 + unit.toUInt32) hash).toNat : Int) % 2 ^ 32 =
      (units.foldl (fun hash unit => 31 * hash + (unit.toNat : Int)) start) % 2 ^ 32 := by
  induction units generalizing hash start with
  | nil => exact congruent
  | cons unit rest inductionHypothesis =>
    apply inductionHypothesis
    rw [UInt32.toNat_add, UInt32.toNat_mul, UInt16.toNat_toUInt32]
    simp only [UInt32.reduceToNat]
    omega

/-- The hash of an encoded string is Java's hash of its units. -/
theorem ComputeUtf16HashFromModifiedUtf8_encode (units : List UInt16) :
    ComputeUtf16HashFromModifiedUtf8 (ConvertUtf16ToUtf8 false true false units ++ more)
        units.length =
      some (javaStringHash units) := by
  rw [ComputeUtf16HashFromModifiedUtf8, ComputeUtf16HashFromModifiedUtf8Loop_encode, Option.map_some,
    javaStringHash]
  exact congrArg some (toInt32_congr (foldl_hash_emod units (by rfl)))

/-- Counting a string of encoded units, up to the bytes after it, counts its
units. -/
theorem CountModifiedUtf8CharsLoop_encodeUnits (units : List UInt16) (len : Nat) :
    CountModifiedUtf8CharsLoop more (encodeUnits units ++ more) len = len + units.length := by
  induction units generalizing len with
  | nil =>
    rw [encodeUnits_nil, List.nil_append, CountModifiedUtf8CharsLoop, if_neg (lt_irrefl _)]
    rfl
  | cons unit units inductionHypothesis =>
    rw [encodeUnits_cons, List.append_assoc, CountModifiedUtf8CharsLoop_encodeUnit unit len (by simp),
      inductionHypothesis, List.length_cons]
    omega

end ReadingEncodings

section FastPaths

/-!
## The all-ASCII fast paths

`ConvertUtf16ToModifiedUtf8` and the sized `ConvertModifiedUtf8ToUtf16` copy
unit for byte when the counts agree.  On an encoding the counts agree exactly
when every unit is ASCII other than NUL, and then the copy is the encoding.
-/

theorem length_encodeUnit_eq_one_iff (ch : UInt16) :
    (encodeUnit ch).length = 1 ↔ ch.toNat ≠ 0 ∧ ch.toNat < 0x80 := by
  rw [encodeUnit]
  split
  · next single => exact iff_of_true rfl single
  · next notSingle =>
    split <;> exact iff_of_false (by simp) notSingle

theorem one_le_length_encodeUnit (ch : UInt16) : 1 ≤ (encodeUnit ch).length :=
  List.length_pos_iff.mpr (encodeUnit_ne_nil ch)

/-- Every unit takes at least one byte. -/
theorem length_le_length_encode (units : List UInt16) :
    units.length ≤ (ConvertUtf16ToUtf8 false true false units).length := by
  induction units using encode_induction with
  | nil => exact Nat.le_refl _
  | unit ch rest notPair inductionHypothesis =>
    have oneByte := one_le_length_encodeUnit ch
    rw [encode_cons_unit notPair, List.length_append, List.length_cons]
    omega
  | pair lead trail after leading trailing inductionHypothesis =>
    rw [encode_cons_pair after leading trailing, List.length_append, List.length_cons,
      List.length_cons, fourByteSequence]
    simp only [List.length_cons, List.length_nil]
    omega

/-- A string of ASCII units other than NUL is encoded one byte per unit. -/
theorem encode_of_ascii {units : List UInt16}
    (ascii : ∀ unit ∈ units, unit.toNat ≠ 0 ∧ unit.toNat < 0x80) :
    ConvertUtf16ToUtf8 false true false units = units.map UInt16.toUInt8 := by
  induction units with
  | nil => rfl
  | cons ch rest inductionHypothesis =>
    have single := ascii ch List.mem_cons_self
    have notLead : isLead ch = false := by
      rw [← Bool.not_eq_true, isLead_iff]
      omega
    rw [encode_cons_unit (by simp [notLead]), encodeUnit, if_pos single, ← toUInt8_eq_ofNat,
      inductionHypothesis (fun unit member => ascii unit (List.mem_cons_of_mem ch member))]
    rfl

theorem length_encode (units : List UInt16) :
    (ConvertUtf16ToUtf8 false true false units).length = CountModifiedUtf8BytesInUtf16 units :=
  rfl

/-- The encoding has as many bytes as units exactly when every unit is ASCII
other than NUL: the test of both fast paths. -/
theorem CountModifiedUtf8BytesInUtf16_eq_length_iff (units : List UInt16) :
    CountModifiedUtf8BytesInUtf16 units = units.length ↔
      ∀ unit ∈ units, unit.toNat ≠ 0 ∧ unit.toNat < 0x80 := by
  constructor
  · rw [CountModifiedUtf8BytesInUtf16]
    induction units using encode_induction with
    | nil => exact fun _ unit member => absurd member List.not_mem_nil
    | unit ch rest notPair inductionHypothesis =>
      -- Both the unit and the rest take at least a byte per unit, so each
      -- takes exactly one.
      have oneByte := one_le_length_encodeUnit ch
      have restBytes := length_le_length_encode rest
      rw [encode_cons_unit notPair, List.length_append, List.length_cons]
      intro same unit member
      rcases List.mem_cons.mp member with isCh | inRest
      · rw [isCh]
        exact (length_encodeUnit_eq_one_iff ch).mp (by omega)
      · exact inductionHypothesis (by omega) unit inRest
    | pair lead trail after leading trailing inductionHypothesis =>
      have afterBytes := length_le_length_encode after
      rw [encode_cons_pair after leading trailing, List.length_append, fourByteSequence]
      simp only [List.length_cons, List.length_nil]
      omega
  · intro ascii
    rw [CountModifiedUtf8BytesInUtf16, encode_of_ascii ascii, List.length_map]

/-- `ConvertUtf16ToModifiedUtf8`, given the count of
`CountModifiedUtf8BytesInUtf16`, writes the encoding, by the fast path or the
encoder. -/
theorem ConvertUtf16ToModifiedUtf8_eq (units : List UInt16) :
    ConvertUtf16ToModifiedUtf8 (CountModifiedUtf8BytesInUtf16 units) units =
      ConvertUtf16ToUtf8 false true false units := by
  rw [ConvertUtf16ToModifiedUtf8]
  split
  · next same => exact (encode_of_ascii ((CountModifiedUtf8BytesInUtf16_eq_length_iff units).mp same)).symm
  · rfl

theorem toUInt16_toUInt8_of_lt {unit : UInt16} (small : unit.toNat < 0x100) :
    unit.toUInt8.toUInt16 = unit := by
  rw [← UInt16.toNat_inj, UInt8.toNat_toUInt16, UInt16.toNat_toUInt8]
  omega

/-- The sized `ConvertModifiedUtf8ToUtf16`, given the unit and byte counts of an
encoding, reads the units back, by the fast path or the loop. -/
theorem ConvertModifiedUtf8ToUtf16Sized_encode (units : List UInt16) (more : List UInt8) :
    ConvertModifiedUtf8ToUtf16Sized units.length (ConvertUtf16ToUtf8 false true false units ++ more)
        (CountModifiedUtf8BytesInUtf16 units) =
      units := by
  rw [ConvertModifiedUtf8ToUtf16Sized]
  split
  · next same =>
    have ascii := (CountModifiedUtf8BytesInUtf16_eq_length_iff units).mp same.symm
    rw [List.take_left' (length_encode units),
      encode_of_ascii ascii, List.map_map]
    calc List.map (UInt8.toUInt16 ∘ UInt16.toUInt8) units = List.map id units :=
          List.map_congr_left fun unit member => toUInt16_toUInt8_of_lt (by
            have := ascii unit member
            omega)
      _ = units := List.map_id units
  · rw [List.drop_left' (length_encode units),
      ConvertModifiedUtf8ToUtf16Loop_encode]

end FastPaths

/-- Modified UTF-8 round trip.  For every string of UTF-16 units, NUL and lone
or paired surrogates included, and whatever bytes follow the encoding: the
bytes `ConvertUtf16ToModifiedUtf8` writes are as many as
`CountModifiedUtf8BytesInUtf16` counts, and `CountModifiedUtf8Chars`, the sized
`ConvertModifiedUtf8ToUtf16` and `ComputeUtf16HashFromModifiedUtf8` read from
them the number of units, the units and their Java hash. -/
theorem modified_utf8_round_trip (s : List UInt16) (rest : List UInt8) :
    (ConvertUtf16ToModifiedUtf8 (CountModifiedUtf8BytesInUtf16 s) s).length =
        CountModifiedUtf8BytesInUtf16 s ∧
      CountModifiedUtf8Chars (ConvertUtf16ToModifiedUtf8 (CountModifiedUtf8BytesInUtf16 s) s ++ rest)
          (CountModifiedUtf8BytesInUtf16 s) = s.length ∧
      ConvertModifiedUtf8ToUtf16Sized s.length
          (ConvertUtf16ToModifiedUtf8 (CountModifiedUtf8BytesInUtf16 s) s ++ rest)
          (CountModifiedUtf8BytesInUtf16 s) = s ∧
      ComputeUtf16HashFromModifiedUtf8
          (ConvertUtf16ToModifiedUtf8 (CountModifiedUtf8BytesInUtf16 s) s ++ rest) s.length =
        some (javaStringHash s) := by
  rw [ConvertUtf16ToModifiedUtf8_eq s]
  refine ⟨rfl, ?_, ConvertModifiedUtf8ToUtf16Sized_encode s rest,
    ComputeUtf16HashFromModifiedUtf8_encode s⟩
  rw [CountModifiedUtf8Chars, List.drop_left' (length_encode s), CountModifiedUtf8CharsLoop_encode,
    Nat.zero_add]

end ArtRuntime.Dex
