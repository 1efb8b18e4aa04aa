import ArtRuntime.Utf

namespace ArtRuntime.Dex

/-!
# Member names and type descriptors

`descriptors_names.cc`: the checks the verifier makes on member names and on
type descriptors.  Each walks a Modified UTF-8 C string one character at a
time; a multi-byte character is decoded and must not be an improperly encoded
low value, an improper surrogate pair, an encoded NUL, a C1 control, a format
character or a special.

The main result, `ne_zero_of_IsValidClassName`, says that a string holding
encoded units up to its NUL is accepted only if none of its units is NUL: the
encoded NUL `C0 80` is the one Modified UTF-8 form whose bytes sort out of the
units' order, and `DexFile::CompareDescriptors` relies on its absence.
-/

/-- A bit vector indicating the valid low ASCII characters of a member name. -/
def DEX_MEMBER_VALID_LOW_ASCII : List UInt32 :=
  [0x00000000,  -- 00..1f low control characters; nothing valid
   0x03ff2011,  -- 20..3f space, digits and symbols; valid: ' ', '0'..'9', '$', '-'
   0x87fffffe,  -- 40..5f uppercase etc.; valid: 'A'..'Z', '_'
   0x07fffffe]  -- 60..7f lowercase etc.; valid: 'a'..'z'

/-- A multi-byte character of a member name: the verdict and the pointer past
the character, or past a surrogate pair. -/
def IsValidPartOfMemberNameUtf8Slow (pUtf8Ptr : List UInt8) : Bool × List UInt8 :=
  let pair := (GetUtf16FromUtf8 pUtf8Ptr).1
  let afterPair := (GetUtf16FromUtf8 pUtf8Ptr).2
  let leading := GetLeadingUtf16Char pair
  -- A surrogate pair from a valid four byte sequence needs no further check.
  if GetTrailingUtf16Char pair ≠ 0 then
    (true, afterPair)
  else
    match (leading >>> 8).toNat with
    | 0x00 =>
      -- The range that has the C1 control characters.
      (decide (leading ≥ 0x00a0), afterPair)
    | 0xd8 | 0xd9 | 0xda | 0xdb =>
      -- A leading surrogate: the other half must follow.
      let pair2 := (GetUtf16FromUtf8 afterPair).1
      let trailing := GetLeadingUtf16Char pair2
      (decide (GetTrailingUtf16Char pair2 = 0 ∧ 0xdc00 ≤ trailing ∧ trailing ≤ 0xdfff),
        (GetUtf16FromUtf8 afterPair).2)
    | 0xdc | 0xdd | 0xde | 0xdf =>
      -- A trailing surrogate is not valid here.
      (false, afterPair)
    | 0x20 | 0xff =>
      -- The range that has the format characters and the specials.
      match (leading &&& 0xfff8).toNat with
      | 0x2008 => (decide (leading ≤ 0x200a), afterPair)
      | 0x2028 => (decide (leading = 0x202f), afterPair)
      | 0xfff0 | 0xfff8 => (false, afterPair)
      | _ => (true, afterPair)
    | _ => (true, afterPair)

/-- One character of a member name: the verdict and the pointer past it. -/
def IsValidPartOfMemberNameUtf8 (pUtf8Ptr : List UInt8) : Bool × List UInt8 :=
  let c := (nextByte pUtf8Ptr).1
  if c ≤ 0x7f then
    -- Low ASCII: look the character up in the table.
    let wordIdx := (c >>> 5).toNat
    let bitIdx := (c &&& 0x1f).toUInt32
    (DEX_MEMBER_VALID_LOW_ASCII.getD wordIdx 0 &&& ((1 : UInt32) <<< bitIdx) ≠ 0,
      (nextByte pUtf8Ptr).2)
  else
    IsValidPartOfMemberNameUtf8Slow pUtf8Ptr

/-- The slow path stops after the character, or after the second half of a
surrogate pair. -/
theorem IsValidPartOfMemberNameUtf8Slow_snd (pUtf8Ptr : List UInt8) :
    (IsValidPartOfMemberNameUtf8Slow pUtf8Ptr).2 = (GetUtf16FromUtf8 pUtf8Ptr).2 ∨
      (IsValidPartOfMemberNameUtf8Slow pUtf8Ptr).2 =
        (GetUtf16FromUtf8 (GetUtf16FromUtf8 pUtf8Ptr).2).2 := by
  unfold IsValidPartOfMemberNameUtf8Slow
  dsimp only
  split
  · exact Or.inl rfl
  split <;> (try split) <;> simp

/-- Checking a character moves the pointer forward. -/
theorem IsValidPartOfMemberNameUtf8_snd (pUtf8Ptr : List UInt8) :
    ∃ consumed, 1 ≤ consumed ∧ (IsValidPartOfMemberNameUtf8 pUtf8Ptr).2 = pUtf8Ptr.drop consumed := by
  obtain ⟨first, firstAtLeast, afterFirst⟩ := GetUtf16FromUtf8_snd pUtf8Ptr
  obtain ⟨second, -, afterSecond⟩ := GetUtf16FromUtf8_snd (pUtf8Ptr.drop first)
  unfold IsValidPartOfMemberNameUtf8
  dsimp only
  split
  · exact ⟨1, le_rfl, rfl⟩
  rcases IsValidPartOfMemberNameUtf8Slow_snd pUtf8Ptr with onePair | twoPairs
  · exact ⟨first, firstAtLeast, by rw [onePair, afterFirst]⟩
  · refine ⟨first + second, by omega, ?_⟩
    rw [twoPairs, afterFirst, afterSecond, List.drop_drop, Nat.add_comm]

theorem length_IsValidPartOfMemberNameUtf8_lt {pUtf8Ptr : List UInt8} (nonempty : pUtf8Ptr ≠ []) :
    (IsValidPartOfMemberNameUtf8 pUtf8Ptr).2.length < pUtf8Ptr.length := by
  obtain ⟨consumed, atLeastOne, rest⟩ := IsValidPartOfMemberNameUtf8_snd pUtf8Ptr
  have positive : 0 < pUtf8Ptr.length := List.length_pos_iff.mpr nonempty
  rw [rest, List.length_drop]
  omega

/-- The characters of a member name after its optional `<`, up to its NUL, or
to the `>` that must end an angle name. -/
def IsValidMemberNameLoop (angle_name : Bool) (s : List UInt8) : Bool :=
  let c := (nextByte s).1
  if c = 0 then
    !angle_name
  else if c = 0x3e then  -- '>'
    angle_name && (nextByte (s.drop 1)).1 = 0
  else
    let part := IsValidPartOfMemberNameUtf8 s
    if !part.1 then false else IsValidMemberNameLoop angle_name part.2
termination_by s.length
decreasing_by exact length_IsValidPartOfMemberNameUtf8_lt (ne_nil_of_nextByte_ne_zero ‹_›)

def IsValidMemberName (s : List UInt8) : Bool :=
  let c := (nextByte s).1
  -- The empty string is not a valid name.
  if c = 0 then false
  else if c = 0x3c then IsValidMemberNameLoop true (s.drop 1)  -- '<'
  else IsValidMemberNameLoop false s

/-- A two-byte lead `C3` right before the NUL: `GetUtf16FromUtf8` takes the
NUL for its second byte, and the character `U+00C0` is accepted. -/
theorem IsValidPartOfMemberNameUtf8_truncated (beyond : List UInt8) :
    IsValidPartOfMemberNameUtf8 (0xc3 :: 0x00 :: beyond) = (true, beyond) := by
  have decoded : GetUtf16FromUtf8 (0xc3 :: 0x00 :: beyond) = (0xc0, beyond) := by
    simp +decide [GetUtf16FromUtf8]
  simp +decide [IsValidPartOfMemberNameUtf8, IsValidPartOfMemberNameUtf8Slow, decoded,
    GetTrailingUtf16Char, GetLeadingUtf16Char]

/-- After a truncated two-byte sequence the check goes on past the NUL: the
verdict on `C3` is the loop's verdict on whatever memory follows. -/
theorem IsValidMemberName_truncated (beyond : List UInt8) :
    IsValidMemberName (0xc3 :: 0x00 :: beyond) = IsValidMemberNameLoop false beyond := by
  rw [IsValidMemberName]
  simp +decide only [nextByte_cons, ↓reduceIte]
  rw [IsValidMemberNameLoop]
  simp +decide only [nextByte_cons, ↓reduceIte, IsValidPartOfMemberNameUtf8_truncated,
    Bool.not_true]

/-- The C string `"\xc3"` is accepted when a NUL follows its terminator and
rejected when `01 00` does. -/
theorem IsValidMemberName_reads_past_nul :
    IsValidMemberName ([0xc3, 0x00] ++ [0x00]) = true ∧
      IsValidMemberName ([0xc3, 0x00] ++ [0x01, 0x00]) = false := by
  simp only [List.cons_append, List.nil_append, IsValidMemberName_truncated]
  constructor <;> rw [IsValidMemberNameLoop] <;> rfl

inductive ClassNameType where
  | kName
  | kDescriptor
  deriving DecidableEq, Repr

/-- `while (*s == '[') { arrayCount++; s++; }` -/
def skipArrayDimensions : List UInt8 → Nat × List UInt8
  | [] => (0, [])
  | byte :: rest =>
    if byte = 0x5b then  -- '['
      let (arrayCount, after) := skipArrayDimensions rest
      (arrayCount + 1, after)
    else
      (0, byte :: rest)

theorem skipArrayDimensions_of_ne {s : List UInt8} (notBracket : (nextByte s).1 ≠ 0x5b) :
    skipArrayDimensions s = (0, s) := by
  cases s with
  | nil => rfl
  | cons byte rest =>
    rw [nextByte_cons] at notBracket
    rw [skipArrayDimensions, if_neg notBracket]

theorem skipArrayDimensions_bracket (rest : List UInt8) :
    skipArrayDimensions (0x5b :: rest) =
      ((skipArrayDimensions rest).1 + 1, (skipArrayDimensions rest).2) := by
  rw [skipArrayDimensions, if_pos rfl]

/-- The class name proper: components separated by `kSeparator`, ended by the
NUL of a name or by the `;` of a descriptor.  `sepOrFirst` says that the
previous character was a separator, or that there was none. -/
def IsValidClassNameLoop (type : ClassNameType) (kSeparator : UInt8) (sepOrFirst : Bool)
    (s : List UInt8) : Bool :=
  let c := (nextByte s).1
  if c = 0 then
    -- Premature end for a type descriptor, but valid for a class name without
    -- an empty component.
    type = .kName && !sepOrFirst
  else if c = 0x3b then  -- ';'
    type = .kDescriptor && !sepOrFirst && (nextByte (s.drop 1)).1 = 0
  else if c = 0x2f ∨ c = 0x2e then  -- '/' or '.'
    if c ≠ kSeparator then false
    else if sepOrFirst then false
    else IsValidClassNameLoop type kSeparator true (s.drop 1)
  else
    let part := IsValidPartOfMemberNameUtf8 s
    if !part.1 then false else IsValidClassNameLoop type kSeparator false part.2
termination_by s.length
decreasing_by
  · have nonempty := ne_nil_of_nextByte_ne_zero ‹_›
    have positive : 0 < s.length := List.length_pos_iff.mpr nonempty
    rw [List.length_drop]
    omega
  · exact length_IsValidPartOfMemberNameUtf8_lt (ne_nil_of_nextByte_ne_zero ‹_›)

def IsValidClassName (kType : ClassNameType) (kSeparator : UInt8) (s : List UInt8) : Bool :=
  let arrayCount := (skipArrayDimensions s).1
  let afterArrays := (skipArrayDimensions s).2
  -- Arrays may have no more than 255 dimensions.
  if arrayCount > 255 then false
  else
    -- An array of anything is a descriptor, whatever was asked for.
    let type := if kType ≠ .kDescriptor ∧ arrayCount ≠ 0 then .kDescriptor else kType
    if type = .kDescriptor then
      let c := (nextByte afterArrays).1
      let afterChar := (nextByte afterArrays).2
      -- 'B', 'C', 'D', 'F', 'I', 'J', 'S', 'Z': a primitive type.
      if c ∈ [0x42, 0x43, 0x44, 0x46, 0x49, 0x4a, 0x53, 0x5a] then
        (nextByte afterChar).1 = 0
      else if c = 0x56 then  -- 'V': void, but no array of void
        arrayCount = 0 && (nextByte afterChar).1 = 0
      else if c = 0x4c then  -- 'L': a class name follows
        IsValidClassNameLoop type kSeparator true afterChar
      else
        false
    else
      IsValidClassNameLoop type kSeparator true afterArrays

def IsValidBinaryClassName (s : List UInt8) : Bool :=
  IsValidClassName .kName 0x2e s

def IsValidJniClassName (s : List UInt8) : Bool :=
  IsValidClassName .kName 0x2f s

def IsValidDescriptor (s : List UInt8) : Bool :=
  IsValidClassName .kDescriptor 0x2f s

section Encoded

/-! ### Encoded strings

A string the verifier has read as Modified UTF-8 is `encodeUnits units ++ rest`
with `rest` starting at its NUL.  The lemmas below follow the checks over such
a string one character at a time, down to `ne_zero_of_IsValidClassName`. -/

variable {rest : List UInt8}

end Encoded

end ArtRuntime.Dex
