import Mathlib.Data.List.Lex
import Mathlib.Data.Prod.Lex
import ArtRuntime.Bits.LittleEndian

namespace ArtRuntime.Bits

/-!
# Runs of a bit stream as lists

A run of `length` bits of a stream from `position` is also a list of bits,
the first bit first.  Whatever splits the run into words, the words are
fields of the list's pieces, so that facts about every word add up to facts
about the list: the count of its set bits, that it is all clear, that two
runs are equal, and which of two runs of one length comes first.

Runs are ordered as lists, lexicographically from their first bit; the
lowest bit where two words differ is where their runs first differ
(`ctz_xor_ofNat_bitField`).  `compareSign` is a comparison as the `-1`, `0`,
`1` of C, and its lemmas carry the order's laws over to such a result.
-/

/-- The bits `position ..< position + length` of a stream, first bit first. -/
def bitList (bits : Nat → Bool) (position length : Nat) : List Bool :=
  (List.range length).map fun j => bits (position + j)

section Lists

variable {bits : Nat → Bool}

@[simp] theorem length_bitList (position length : Nat) :
    (bitList bits position length).length = length := by
  simp [bitList]

@[simp] theorem getElem_bitList {position length i : Nat}
    (inside : i < (bitList bits position length).length) :
    (bitList bits position length)[i] = bits (position + i) := by
  simp [bitList]

/-- A run of `first + second` bits is its first `first` bits followed by the
run after them. -/
theorem bitList_add (position first second : Nat) :
    bitList bits position (first + second) =
      bitList bits position first ++ bitList bits (position + first) second := by
  simp [bitList, List.range_add, Nat.add_assoc]

/-- Runs of one length are equal when their bits are, one by one. -/
theorem bitList_eq_iff {other : Nat → Bool} {position otherPosition length : Nat} :
    bitList bits position length = bitList other otherPosition length ↔
      ∀ j < length, bits (position + j) = other (otherPosition + j) := by
  constructor
  · intro same j inside
    have atJ := congrArg (fun list => list[j]?) same
    simpa [bitList, inside] using atJ
  · intro same
    exact List.ext_getElem (by simp) fun j inside _ => by
      simpa using same j (by simpa using inside)

end Lists

/-! ### Runs held in a word -/

section Words

variable {w : Nat} {bits : Nat → Bool} {position length : Nat}

/-- The bits of a word holding a field are the field's, and clear above it. -/
theorem getLsbD_ofNat_bitField (fits : length ≤ w) (j : Nat) :
    (BitVec.ofNat w (bitField bits position length)).getLsbD j =
      (decide (j < length) && bits (position + j)) := by
  rw [BitVec.getLsbD_ofNat, testBit_bitField]
  by_cases inside : j < length
  · simp [inside, show j < w by omega]
  · simp [inside]

/-- A word holding a field is zero when the run is all clear. -/
theorem ofNat_bitField_eq_zero_iff (fits : length ≤ w) :
    BitVec.ofNat w (bitField bits position length) = 0 ↔
      ∀ bit ∈ bitList bits position length, bit = false := by
  constructor
  · intro zero bit member
    obtain ⟨j, inside, rfl⟩ := List.mem_map.mp member
    have cleared := congrArg (fun word => BitVec.getLsbD word j) zero
    simpa [getLsbD_ofNat_bitField fits, List.mem_range.mp inside] using cleared
  · intro cleared
    apply BitVec.eq_of_getLsbD_eq
    intro j _
    rw [getLsbD_ofNat_bitField fits]
    by_cases inside : j < length
    · have clear := cleared (bits (position + j))
        (List.mem_map.mpr ⟨j, List.mem_range.mpr inside, rfl⟩)
      simp [inside, clear]
    · simp [inside]

/-- Words holding two fields of one length are equal when the runs are. -/
theorem ofNat_bitField_eq_iff (fits : length ≤ w) {other : Nat → Bool} {otherPosition : Nat} :
    BitVec.ofNat w (bitField bits position length) =
        BitVec.ofNat w (bitField other otherPosition length) ↔
      bitList bits position length = bitList other otherPosition length := by
  rw [bitList_eq_iff]
  constructor
  · intro same j inside
    have atJ := congrArg (fun word => BitVec.getLsbD word j) same
    simpa [getLsbD_ofNat_bitField fits, inside] using atJ
  · intro same
    apply BitVec.eq_of_getLsbD_eq
    intro j _
    rw [getLsbD_ofNat_bitField fits, getLsbD_ofNat_bitField fits]
    by_cases inside : j < length
    · simp [inside, same j inside]
    · simp [inside]

/-- The population count of the core library, as a count of the set bits
below `count`. -/
theorem cpopNatRec_zero_eq_countP (x : BitVec w) (count : Nat) :
    x.cpopNatRec count 0 = (List.range count).countP (x.getLsbD ·) := by
  induction count with
  | zero => rfl
  | succ count inductionHypothesis =>
    rw [BitVec.cpopNatRec_succ, Nat.zero_add, BitVec.cpopNatRec_eq, inductionHypothesis,
      List.range_succ, List.countP_append]
    cases bit : x.getLsbD count <;> simp [bit]

/-- The set bits of a word holding a field are the set bits of the run. -/
theorem toNat_cpop_ofNat_bitField (fits : length ≤ w) :
    (BitVec.ofNat w (bitField bits position length)).cpop.toNat =
      (bitList bits position length).count true := by
  rw [BitVec.toNat_cpop, cpopNatRec_zero_eq_countP, List.count_eq_countP, bitList,
    List.countP_map]
  -- The word's bits beyond the run are clear: the range of the word counts as the run's.
  obtain ⟨extra, rfl⟩ := Nat.exists_eq_add_of_le fits
  have beyond : (List.range extra).countP
      ((fun j => (BitVec.ofNat (length + extra) (bitField bits position length)).getLsbD j) ∘
        fun j => length + j) = 0 :=
    List.countP_eq_zero.mpr fun j _ => by simp [getLsbD_ofNat_bitField fits]
  rw [List.range_add, List.countP_append, List.countP_map, beyond, Nat.add_zero]
  apply List.countP_congr
  intro j inside
  simp [getLsbD_ofNat_bitField fits, List.mem_range.mp inside]

end Words

/-! ### The lowest differing bit -/

/-- The trailing zeros of `x ^ y` count the low bits where two different
words agree; the next bit is where they differ. -/
theorem ctz_xor_getLsbD {w : Nat} {x y : BitVec w} (different : x ≠ y) :
    (x ^^^ y).ctz.toNat < w ∧ (∀ i < (x ^^^ y).ctz.toNat, x.getLsbD i = y.getLsbD i) ∧
      x.getLsbD (x ^^^ y).ctz.toNat ≠ y.getLsbD (x ^^^ y).ctz.toNat := by
  have nonzero : x ^^^ y ≠ 0#w := by
    intro zero
    exact different (by simpa [BitVec.xor_assoc] using congrArg (· ^^^ y) zero)
  have below := BitVec.ctz_lt_iff_ne_zero.mpr nonzero
  refine ⟨?_, fun i low => ?_, fun same => ?_⟩
  · rw [BitVec.lt_def] at below
    simpa using below
  · have clear := BitVec.getLsbD_false_of_lt_ctz low
    rw [BitVec.getLsbD_xor] at clear
    cases hx : x.getLsbD i <;> cases hy : y.getLsbD i <;> simp_all
  · have set := BitVec.getLsbD_true_ctz_of_ne_zero nonzero
    rw [BitVec.getLsbD_xor, same] at set
    simp at set

/-- Two different words holding fields of one length first differ inside the
fields, at the first bit where the runs differ. -/
theorem ctz_xor_ofNat_bitField {w : Nat} {bits : Nat → Bool} {position other length : Nat}
    (fits : length ≤ w)
    (different : BitVec.ofNat w (bitField bits position length) ≠
      BitVec.ofNat w (bitField bits other length)) :
    (BitVec.ofNat w (bitField bits position length) ^^^
        BitVec.ofNat w (bitField bits other length)).ctz.toNat < length ∧
      (∀ j < (BitVec.ofNat w (bitField bits position length) ^^^
          BitVec.ofNat w (bitField bits other length)).ctz.toNat,
        bits (position + j) = bits (other + j)) ∧
      bits (position + (BitVec.ofNat w (bitField bits position length) ^^^
          BitVec.ofNat w (bitField bits other length)).ctz.toNat) ≠
        bits (other + (BitVec.ofNat w (bitField bits position length) ^^^
          BitVec.ofNat w (bitField bits other length)).ctz.toNat) := by
  obtain ⟨-, below, differs⟩ := ctz_xor_getLsbD different
  generalize (BitVec.ofNat w (bitField bits position length) ^^^
    BitVec.ofNat w (bitField bits other length)).ctz.toNat = lowest at below differs ⊢
  simp only [getLsbD_ofNat_bitField fits] at below differs
  -- Above the fields both words are clear, so the lowest difference is inside them.
  have inside : lowest < length := by
    by_contra beyond
    simp [beyond] at differs
  refine ⟨inside, fun j low => ?_, by simpa [inside] using differs⟩
  simpa [show j < length by omega] using below j low

/-- `(x >> j) & 1` is not zero when bit `j` is set. -/
theorem ushiftRight_and_one_ne_zero_iff {w : Nat} (x : BitVec w) (positive : 0 < w) (j : Nat) :
    (x >>> j) &&& 1 ≠ 0 ↔ x.getLsbD j = true := by
  have one : (1 : BitVec w).toNat = 1 := by
    show (BitVec.ofNat w 1).toNat = 1
    rw [BitVec.toNat_ofNat]
    exact Nat.mod_eq_of_lt (Nat.one_lt_two_pow (by omega))
  have zero : (0 : BitVec w).toNat = 0 := by
    show (BitVec.ofNat w 0).toNat = 0
    rw [BitVec.toNat_ofNat, Nat.zero_mod]
  rw [ne_eq, ← BitVec.toNat_inj, BitVec.toNat_and, BitVec.toNat_ushiftRight, one, zero,
    Nat.and_one_is_mod, Nat.shiftRight_eq_div_pow, BitVec.getLsbD,
    Nat.testBit_eq_decide_div_mod_eq]
  simp

/-- Two lists of bits with the same first `i` bits and different bits at `i`
are ordered by that bit. -/
theorem lt_iff_of_take_eq {l r : List Bool} {i : Nat} (inLeft : i < l.length)
    (inRight : i < r.length) (same : l.take i = r.take i) (differs : l[i] ≠ r[i]) :
    l < r ↔ r[i] = true := by
  have splitLeft : l = l.take i ++ l[i] :: l.drop (i + 1) := by
    rw [← List.drop_eq_getElem_cons inLeft, List.take_append_drop]
  have splitRight : r = l.take i ++ r[i] :: r.drop (i + 1) := by
    rw [same, ← List.drop_eq_getElem_cons inRight, List.take_append_drop]
  constructor
  · intro ordered
    -- Were `r[i]` clear, `l[i]` would be set and `r` would come first.
    by_contra clear
    have rightClear : r[i] = false := by simpa using clear
    have leftSet : l[i] = true := by simpa [rightClear] using differs
    have first : r < l := by
      rw [splitLeft, splitRight]
      exact List.Lex.append_left _ (List.Lex.rel (by rw [rightClear, leftSet]; decide)) _
    exact lt_asymm ordered first
  · intro set
    have leftClear : l[i] = false := by simpa [set] using differs
    rw [splitLeft, splitRight]
    exact List.Lex.append_left _ (List.Lex.rel (by rw [leftClear, set]; decide)) _

/-! ### Three-way comparisons as `int` -/

section Compare

variable {α : Type} [LinearOrder α] {a b c : α}

/-- The `int` a C comparison function returns: negative, zero or positive as
`a` is below, equal to or above `b`. -/
def compareSign (a b : α) : Int :=
  if a < b then -1 else if a = b then 0 else 1

theorem compareSign_eq_zero_iff : compareSign a b = 0 ↔ a = b := by
  unfold compareSign
  split_ifs with less same <;> simp_all [ne_of_lt]

theorem compareSign_neg_iff : compareSign a b < 0 ↔ a < b := by
  unfold compareSign
  split_ifs <;> simp_all

theorem compareSign_nonpos_iff : compareSign a b ≤ 0 ↔ a ≤ b := by
  unfold compareSign
  split_ifs with less same
  · simp [less.le]
  · simp [same]
  · simp only [Int.reduceLE, false_iff, not_le]
    exact lt_of_le_of_ne (not_lt.mp less) (Ne.symm same)

theorem compareSign_swap : compareSign a b = -compareSign b a := by
  rcases lt_trichotomy a b with less | same | greater
  · simp [compareSign, less, not_lt.mpr less.le, ne_of_gt less]
  · simp [compareSign, same]
  · simp [compareSign, greater, not_lt.mpr greater.le, ne_of_gt greater]

end Compare

end ArtRuntime.Bits
