import ArtRuntime.UtfConversion

namespace ArtRuntime.Dex

open ArtRuntime.FixedWidth

/-!
# Comparing Modified UTF-8 by UTF-16 code units

`CompareModifiedUtf8ToUtf16AsCodePointValues` of `utf.cc` compares a C string
with a UTF-16 string, and `CompareModifiedUtf8ToModifiedUtf8AsUtf16CodePointValues`
(in `Utf`) two C strings, each meant to order strings as their UTF-16 code
units.

The first does so for every C string: it reads the string the way
`ConvertModifiedUtf8ToUtf16` decodes it, a leading unit and then a trailing one
when the decoder yields a pair (`CompareModifiedUtf8ToUtf16AsCodePointValues_sign`).
The second compares the values that `GetUtf16FromUtf8` returns, a whole pair
against a single unit when one string holds a four-byte sequence where the
other holds a lone leading surrogate; it orders strings without pairs correctly
(`Compare_encode_of_noSurrogatePair`) and fails on such a mix
(`CompareModifiedUtf8ToModifiedUtf8_pair_against_lone_lead`).
-/

/-- `CompareModifiedUtf8ToUtf16AsCodePointValues(utf8, utf16, utf16_length)`,
with `utf16` the `utf16_length` units. -/
def CompareModifiedUtf8ToUtf16AsCodePointValues (utf8 : List UInt8) (utf16 : List UInt16) : Int :=
  if (nextByte utf8).1 = 0 then
    if utf16 = [] then 0 else -1
  else
    match utf16 with
    | [] => 1
    | rhs :: utf16Rest =>
      let pair := GetUtf16FromUtf8 utf8
      -- First compare the leading utf16 char.
      let lhs := GetLeadingUtf16Char pair.1
      if lhs ≠ rhs then
        if lhs > rhs then 1 else -1
      else
        -- Then the trailing one, if the pair has one.
        let lhs2 := GetTrailingUtf16Char pair.1
        if lhs2 ≠ 0 then
          match utf16Rest with
          | [] => 1
          | rhs2 :: more =>
            if lhs2 ≠ rhs2 then
              if lhs2 > rhs2 then 1 else -1
            else
              CompareModifiedUtf8ToUtf16AsCodePointValues pair.2 more
        else
          CompareModifiedUtf8ToUtf16AsCodePointValues pair.2 utf16Rest
termination_by utf8.length
decreasing_by
  all_goals exact length_GetUtf16FromUtf8_lt (ne_nil_of_nextByte_ne_zero ‹_›)

section Decoding

variable {utf8 : List UInt8}

theorem ConvertModifiedUtf8ToUtf16_of_nul (ends : (nextByte utf8).1 = 0) :
    ConvertModifiedUtf8ToUtf16 utf8 = [] := by
  rw [ConvertModifiedUtf8ToUtf16, if_neg (not_not.mpr ends)]

/-- A single unit: the decoder yields the leading unit and goes on. -/
theorem ConvertModifiedUtf8ToUtf16_of_unit (notEnd : (nextByte utf8).1 ≠ 0)
    (single : GetTrailingUtf16Char (GetUtf16FromUtf8 utf8).1 = 0) :
    ConvertModifiedUtf8ToUtf16 utf8 = GetLeadingUtf16Char (GetUtf16FromUtf8 utf8).1 ::
      ConvertModifiedUtf8ToUtf16 (GetUtf16FromUtf8 utf8).2 := by
  rw [ConvertModifiedUtf8ToUtf16, if_pos notEnd]
  simp only [single, ne_eq, not_true_eq_false, if_false]

/-- A pair: the decoder yields both halves and goes on. -/
theorem ConvertModifiedUtf8ToUtf16_of_pair (notEnd : (nextByte utf8).1 ≠ 0)
    (paired : GetTrailingUtf16Char (GetUtf16FromUtf8 utf8).1 ≠ 0) :
    ConvertModifiedUtf8ToUtf16 utf8 = GetLeadingUtf16Char (GetUtf16FromUtf8 utf8).1 ::
      GetTrailingUtf16Char (GetUtf16FromUtf8 utf8).1 ::
        ConvertModifiedUtf8ToUtf16 (GetUtf16FromUtf8 utf8).2 := by
  rw [ConvertModifiedUtf8ToUtf16, if_pos notEnd]
  simp only [paired, ne_eq, not_false_eq_true, if_true]

theorem ConvertModifiedUtf8ToUtf16_cons (notEnd : (nextByte utf8).1 ≠ 0) :
    ∃ tail, ConvertModifiedUtf8ToUtf16 utf8 = GetLeadingUtf16Char (GetUtf16FromUtf8 utf8).1 :: tail := by
  by_cases single : GetTrailingUtf16Char (GetUtf16FromUtf8 utf8).1 = 0
  · exact ⟨_, ConvertModifiedUtf8ToUtf16_of_unit notEnd single⟩
  · exact ⟨_, ConvertModifiedUtf8ToUtf16_of_pair notEnd single⟩

end Decoding

section Lex

/-! The lexicographic order of code units, decided by a first differing unit. -/

variable {first second : Nat}

theorem lex_cons_of_lt (below : first < second) (rest others : List Nat) :
    first :: rest < second :: others ∧ ¬(second :: others < first :: rest) :=
  ⟨List.cons_lt_cons_iff.mpr (Or.inl below), fun above =>
    (List.cons_lt_cons_iff.mp above).elim (fun wrong => absurd below (Nat.lt_asymm wrong))
      (fun same => absurd same.1 (Nat.ne_of_gt below))⟩

theorem lex_cons_same {rest others : List Nat} : first :: rest < first :: others ↔ rest < others := by
  simp only [List.cons_lt_cons_iff, lt_irrefl, false_or, true_and]

end Lex

/-- The comparison with a UTF-16 string has the sign of the lexicographic
comparison of the C string's decoding with it, for every C string.  The
induction follows the loop: a string ends, a leading or a trailing unit
differs, or the loop goes on past one unit or a pair. -/
theorem CompareModifiedUtf8ToUtf16AsCodePointValues_sign (utf8 : List UInt8) (utf16 : List UInt16) :
    (0 < CompareModifiedUtf8ToUtf16AsCodePointValues utf8 utf16 ↔
      codeUnits utf16 < codeUnits (ConvertModifiedUtf8ToUtf16 utf8)) ∧
    (CompareModifiedUtf8ToUtf16AsCodePointValues utf8 utf16 < 0 ↔
      codeUnits (ConvertModifiedUtf8ToUtf16 utf8) < codeUnits utf16) := by
  fun_induction CompareModifiedUtf8ToUtf16AsCodePointValues utf8 utf16 with
  | case1 utf8 ends =>
    rw [ConvertModifiedUtf8ToUtf16_of_nul ends]
    simp
  | case2 utf8 utf16 ends nonempty =>
    obtain ⟨unit, units, rfl⟩ := List.exists_cons_of_ne_nil nonempty
    rw [ConvertModifiedUtf8ToUtf16_of_nul ends]
    simp
  | case3 utf8 notEnd =>
    obtain ⟨tail, decoded⟩ := ConvertModifiedUtf8ToUtf16_cons notEnd
    rw [decoded]
    simp
  | case4 utf8 notEnd rhs more pair lhs differ greater =>
    obtain ⟨tail, decoded⟩ := ConvertModifiedUtf8ToUtf16_cons notEnd
    have order := lex_cons_of_lt (UInt16.lt_iff_toNat_lt.mp greater) (codeUnits more)
      (codeUnits tail)
    rw [decoded, codeUnits_cons, codeUnits_cons]
    exact ⟨iff_of_true (by decide) order.1, iff_of_false (by decide) order.2⟩
  | case5 utf8 notEnd rhs more pair lhs differ notGreater =>
    obtain ⟨tail, decoded⟩ := ConvertModifiedUtf8ToUtf16_cons notEnd
    have below : lhs.toNat < rhs.toNat := by
      have apart : lhs.toNat ≠ rhs.toNat := fun same => differ (UInt16.toNat_inj.mp same)
      have notAbove : ¬rhs.toNat < lhs.toNat := fun above => notGreater (UInt16.lt_iff_toNat_lt.mpr above)
      omega
    have order := lex_cons_of_lt below (codeUnits tail) (codeUnits more)
    rw [decoded, codeUnits_cons, codeUnits_cons]
    exact ⟨iff_of_false (by decide) order.2, iff_of_true (by decide) order.1⟩
  | case6 utf8 notEnd rhs pair lhs same lhs2 paired =>
    rw [not_not] at same
    rw [ConvertModifiedUtf8ToUtf16_of_pair notEnd paired, codeUnits_cons, codeUnits_cons,
      codeUnits_cons, codeUnits_nil, ← same]
    -- The UTF-16 string is the leading unit alone, a proper prefix of the decoding.
    exact ⟨iff_of_true (by decide) (lex_cons_same.mpr (List.nil_lt_cons _ _)),
      iff_of_false (by decide) fun longer => List.not_lt_nil _ (lex_cons_same.mp longer)⟩
  | case7 utf8 notEnd rhs pair lhs same lhs2 paired rhs2 more differ greater =>
    rw [not_not] at same
    have order := lex_cons_of_lt (UInt16.lt_iff_toNat_lt.mp greater) (codeUnits more)
      (codeUnits (ConvertModifiedUtf8ToUtf16 pair.2))
    rw [ConvertModifiedUtf8ToUtf16_of_pair notEnd paired, codeUnits_cons, codeUnits_cons,
      codeUnits_cons, codeUnits_cons, ← same, lex_cons_same, lex_cons_same]
    exact ⟨iff_of_true (by decide) order.1, iff_of_false (by decide) order.2⟩
  | case8 utf8 notEnd rhs pair lhs same lhs2 paired rhs2 more differ notGreater =>
    rw [not_not] at same
    have below : lhs2.toNat < rhs2.toNat := by
      have apart : lhs2.toNat ≠ rhs2.toNat := fun same => differ (UInt16.toNat_inj.mp same)
      have notAbove : ¬rhs2.toNat < lhs2.toNat := fun above =>
        notGreater (UInt16.lt_iff_toNat_lt.mpr above)
      omega
    have order := lex_cons_of_lt below (codeUnits (ConvertModifiedUtf8ToUtf16 pair.2))
      (codeUnits more)
    rw [ConvertModifiedUtf8ToUtf16_of_pair notEnd paired, codeUnits_cons, codeUnits_cons,
      codeUnits_cons, codeUnits_cons, ← same, lex_cons_same, lex_cons_same]
    exact ⟨iff_of_false (by decide) order.2, iff_of_true (by decide) order.1⟩
  | case9 utf8 notEnd rhs pair lhs same lhs2 paired rhs2 more sameTrailing inductionHypothesis =>
    rw [not_not] at same sameTrailing
    rw [ConvertModifiedUtf8ToUtf16_of_pair notEnd paired, codeUnits_cons, codeUnits_cons,
      codeUnits_cons, codeUnits_cons, ← same, ← sameTrailing, lex_cons_same, lex_cons_same,
      lex_cons_same, lex_cons_same]
    exact inductionHypothesis
  | case10 utf8 notEnd rhs more pair lhs same lhs2 single inductionHypothesis =>
    rw [not_not] at same single
    rw [ConvertModifiedUtf8ToUtf16_of_unit notEnd single, codeUnits_cons, codeUnits_cons, ← same,
      lex_cons_same, lex_cons_same]
    exact inductionHypothesis

section BetweenEncodings

/-!
## Comparing two encoded strings

Without surrogate pairs the encoder writes `encodeUnits`, on which the
comparison of two C strings is right (`Compare_encodeUnits`).  A pair is read
as one value holding both halves, and against a lone leading surrogate with the
same leading half the comparison returns the trailing half, positive, whatever
unit follows the lone surrogate.
-/

/-- Whether a leading surrogate of the string is followed by a trailing one. -/
def HasSurrogatePair : List UInt16 → Bool
  | [] => false
  | ch :: rest => (isLead ch && hasTrail rest) || HasSurrogatePair rest

/-- Without pairs the Modified UTF-8 encoder writes every unit in its one-, two-
or three-byte form. -/
theorem encode_eq_encodeUnits {units : List UInt16} (noPair : HasSurrogatePair units = false) :
    ConvertUtf16ToUtf8 false true false units = encodeUnits units := by
  induction units with
  | nil => rfl
  | cons ch rest inductionHypothesis =>
    simp only [HasSurrogatePair, Bool.or_eq_false_iff, Bool.and_eq_false_iff] at noPair
    obtain ⟨notPair, restNoPair⟩ := noPair
    have notBoth : ¬(isLead ch = true ∧ hasTrail rest = true) := by
      rintro ⟨leading, trailing⟩
      rcases notPair with notLeading | notTrailing
      · exact absurd leading (by rw [notLeading]; decide)
      · exact absurd trailing (by rw [notTrailing]; decide)
    rw [encode_cons_unit notBoth, encodeUnits_cons, inductionHypothesis restNoPair]

/-- On encoder output without surrogate pairs, the comparison of two C strings
has the sign of the comparison of their units. -/
theorem Compare_encode_of_noSurrogatePair {first second : List UInt16}
    (firstNoPair : HasSurrogatePair first = false) (secondNoPair : HasSurrogatePair second = false)
    {firstEnd secondEnd : List UInt8} (firstEnds : (nextByte firstEnd).1 = 0)
    (secondEnds : (nextByte secondEnd).1 = 0) :
    (0 < CompareModifiedUtf8ToModifiedUtf8AsUtf16CodePointValues
        (ConvertUtf16ToUtf8 false true false first ++ firstEnd)
        (ConvertUtf16ToUtf8 false true false second ++ secondEnd) ↔
      codeUnits second < codeUnits first) ∧
    (CompareModifiedUtf8ToModifiedUtf8AsUtf16CodePointValues
        (ConvertUtf16ToUtf8 false true false first ++ firstEnd)
        (ConvertUtf16ToUtf8 false true false second ++ secondEnd) < 0 ↔
      codeUnits first < codeUnits second) := by
  rw [encode_eq_encodeUnits firstNoPair, encode_eq_encodeUnits secondNoPair]
  exact Compare_encodeUnits first second firstEnds secondEnds

/-- The pair `D800 DC00` written by `ConvertUtf16ToModifiedUtf8` compares
above `D800 E000`, also written by it, though its units come first; and
against the same pair in the three-byte forms of a dex file it does not
compare equal. -/
theorem CompareModifiedUtf8ToModifiedUtf8_pair_against_lone_lead :
    ConvertModifiedUtf8ToUtf16 (ConvertUtf16ToModifiedUtf8
        (CountModifiedUtf8BytesInUtf16 [0xd800, 0xdc00]) [0xd800, 0xdc00] ++ [0]) = [0xd800, 0xdc00] ∧
      ConvertModifiedUtf8ToUtf16 (ConvertUtf16ToModifiedUtf8
        (CountModifiedUtf8BytesInUtf16 [0xd800, 0xe000]) [0xd800, 0xe000] ++ [0]) = [0xd800, 0xe000] ∧
      codeUnits [0xd800, 0xdc00] < codeUnits [0xd800, 0xe000] ∧
      0 < CompareModifiedUtf8ToModifiedUtf8AsUtf16CodePointValues
        (ConvertUtf16ToModifiedUtf8 (CountModifiedUtf8BytesInUtf16 [0xd800, 0xdc00]) [0xd800, 0xdc00] ++
          [0])
        (ConvertUtf16ToModifiedUtf8 (CountModifiedUtf8BytesInUtf16 [0xd800, 0xe000]) [0xd800, 0xe000] ++
          [0]) ∧
      ConvertModifiedUtf8ToUtf16 (encodeUnits [0xd800, 0xdc00] ++ [0]) = [0xd800, 0xdc00] ∧
      CompareModifiedUtf8ToModifiedUtf8AsUtf16CodePointValues
        (ConvertUtf16ToModifiedUtf8 (CountModifiedUtf8BytesInUtf16 [0xd800, 0xdc00]) [0xd800, 0xdc00] ++
          [0])
        (encodeUnits [0xd800, 0xdc00] ++ [0]) ≠ 0 := by
  decide +kernel

end BetweenEncodings

end ArtRuntime.Dex
