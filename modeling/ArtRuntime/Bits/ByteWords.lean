import Mathlib

namespace ArtRuntime.Bits

/-!
# Little-endian words in a byte buffer

A byte buffer is a list of bytes.  A 32-bit word is stored as its four bytes,
least significant first.  A writer that reserves room first and fills it
later overwrites bytes in place.  The lemmas say where a word reads back and
what an overwrite leaves: a read looks at four bytes only, and an overwrite
of a reserved run is the concatenation of the parts around it.

Nothing in this module names the runtime.
-/

/-- The four bytes of the low 32 bits of `value`, least significant first. -/
def word32Bytes (value : Nat) : List UInt8 :=
  [UInt8.ofNat value, UInt8.ofNat (value / 2 ^ 8), UInt8.ofNat (value / 2 ^ 16),
    UInt8.ofNat (value / 2 ^ 24)]

/-- The little-endian word of the four bytes from `position`, if the buffer
holds them. -/
def readWord32 (bytes : List UInt8) (position : Nat) : Option Nat :=
  match bytes.drop position with
  | b0 :: b1 :: b2 :: b3 :: _ =>
      some (b0.toNat + 2 ^ 8 * b1.toNat + 2 ^ 16 * b2.toNat + 2 ^ 24 * b3.toNat)
  | _ => none

/-- The buffer with the bytes from `position` on replaced by `patch`. -/
def overwrite (bytes : List UInt8) (position : Nat) (patch : List UInt8) : List UInt8 :=
  bytes.take position ++ patch ++ bytes.drop (position + patch.length)

@[simp] theorem length_word32Bytes (value : Nat) : (word32Bytes value).length = 4 := rfl

/-- A stored word reads back as its low 32 bits. -/
theorem readWord32_word32Bytes_append (value : Nat) (rest : List UInt8) :
    readWord32 (word32Bytes value ++ rest) 0 = some (value % 2 ^ 32) := by
  simp only [readWord32, word32Bytes, List.drop_zero, List.cons_append, List.nil_append,
    UInt8.toNat_ofNat', Option.some.injEq]
  omega

/-- A read past the first part of a buffer reads the second part. -/
theorem readWord32_append_of_le {front back : List UInt8} {position : Nat}
    (past : front.length ≤ position) :
    readWord32 (front ++ back) position = readWord32 back (position - front.length) := by
  rw [readWord32, readWord32, List.drop_append, List.drop_eq_nil_of_le past, List.nil_append]

/-- A list of at least four bytes, split after them. -/
theorem exists_four_of_le_length {bytes : List UInt8} (long : 4 ≤ bytes.length) :
    ∃ b0 b1 b2 b3 rest, bytes = b0 :: b1 :: b2 :: b3 :: rest := by
  rcases bytes with _ | ⟨b0, _ | ⟨b1, _ | ⟨b2, _ | ⟨b3, rest⟩⟩⟩⟩
  all_goals simp only [List.length_nil, List.length_cons] at long
  all_goals first | omega | exact ⟨b0, b1, b2, b3, rest, rfl⟩

/-- A read inside the first part of a buffer does not see the second. -/
theorem readWord32_append_of_add_le {front back : List UInt8} {position : Nat}
    (inside : position + 4 ≤ front.length) :
    readWord32 (front ++ back) position = readWord32 front position := by
  obtain ⟨b0, b1, b2, b3, rest, dropped⟩ :=
    exists_four_of_le_length (show 4 ≤ (front.drop position).length by simp; omega)
  rw [readWord32, readWord32, List.drop_append, dropped]
  simp only [List.cons_append]

/-- Nothing is read past the end of a buffer. -/
theorem readWord32_eq_none {bytes : List UInt8} {position : Nat}
    (short : bytes.length < position + 4) : readWord32 bytes position = none := by
  have dropShort : (bytes.drop position).length < 4 := by simp; omega
  unfold readWord32
  generalize bytes.drop position = dropped at dropShort ⊢
  rcases dropped with _ | ⟨b0, _ | ⟨b1, _ | ⟨b2, _ | ⟨b3, rest⟩⟩⟩⟩
  all_goals simp only [List.length_nil, List.length_cons] at dropShort
  all_goals first | omega | rfl

/-- The word at `position` is there exactly when its four bytes are. -/
theorem readWord32_isSome_iff {bytes : List UInt8} {position : Nat} :
    (readWord32 bytes position).isSome ↔ position + 4 ≤ bytes.length := by
  constructor
  · intro isSome
    by_contra short
    rw [readWord32_eq_none (by omega)] at isSome
    exact Bool.false_ne_true isSome
  · intro inside
    obtain ⟨b0, b1, b2, b3, rest, dropped⟩ :=
      exists_four_of_le_length (show 4 ≤ (bytes.drop position).length by simp; omega)
    rw [readWord32, dropped]
    rfl

/-- Word `index` of a run of stored words. -/
theorem readWord32_flatMap {words : List Nat} {index : Nat} (rest : List UInt8)
    (inside : index < words.length) :
    readWord32 (words.flatMap word32Bytes ++ rest) (4 * index) =
      some (words[index] % 2 ^ 32) := by
  induction words generalizing index with
  | nil => exact absurd inside (Nat.not_lt_zero _)
  | cons word words inductionHypothesis =>
    rw [List.flatMap_cons, List.append_assoc]
    cases index with
    | zero =>
      rw [Nat.mul_zero, readWord32_word32Bytes_append]
      rfl
    | succ index =>
      rw [readWord32_append_of_le (by simp), length_word32Bytes,
        show 4 * (index + 1) - 4 = 4 * index by omega,
        inductionHypothesis (by simpa using inside)]
      rfl

@[simp] theorem length_flatMap_word32Bytes (words : List Nat) :
    (words.flatMap word32Bytes).length = 4 * words.length := by
  induction words with
  | nil => rfl
  | cons word words inductionHypothesis =>
    rw [List.flatMap_cons, List.length_append, inductionHypothesis, length_word32Bytes,
      List.length_cons]
    omega

/-- Overwriting a reserved run replaces exactly that run. -/
theorem overwrite_append (front reserved back patch : List UInt8)
    (same : reserved.length = patch.length) :
    overwrite (front ++ reserved ++ back) front.length patch = front ++ patch ++ back := by
  have taken : (front ++ reserved ++ back).take front.length = front := by simp
  have dropped : (front ++ reserved ++ back).drop (front.length + patch.length) = back :=
    List.drop_left' (by simp [same])
  rw [overwrite, taken, dropped]

/-- An overwrite never shortens a buffer. -/
theorem length_le_overwrite (bytes : List UInt8) (position : Nat) (patch : List UInt8) :
    bytes.length ≤ (overwrite bytes position patch).length := by
  simp only [overwrite, List.length_append, List.length_take, List.length_drop]
  omega

theorem length_overwrite {bytes patch : List UInt8} {position : Nat}
    (inside : position + patch.length ≤ bytes.length) :
    (overwrite bytes position patch).length = bytes.length := by
  simp only [overwrite, List.length_append, List.length_take, List.length_drop]
  omega

end ArtRuntime.Bits
