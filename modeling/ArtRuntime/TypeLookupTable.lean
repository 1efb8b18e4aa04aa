import ArtRuntime.DexFile
import ArtRuntime.BitMemoryStream
import ArtRuntime.CompactOffsetTable
import ArtRuntime.OptionLoop

namespace ArtRuntime.Dex

open ArtRuntime.Base ArtRuntime.OptionLoop
open CompactOffsetTable (loadWord wordBytes length_wordBytes loadWord_wordBytes)

/-!
# The type lookup table

`type_lookup_table.{h,cc}`: a hash table from class descriptors to class
definition indexes, with `2 ^ mask_bits` entries for `N` classes, where
`mask_bits` is the least number of bits that holds `N - 1`.  Each entry holds
the offset of the descriptor's string data and one word that packs, from the
low bits up, the delta to the next entry of its chain, the class definition
index and the bits of the hash that neither of those leaves out.

`Create` puts every class at the entry its hash selects when that entry is
free, then appends each class that found it taken to the chain that starts
there, at the next free entry.  `Lookup` walks the chain from the entry the
hash selects.  The chains are the buckets: `Create` fills the entry of every
bucket in its first loop, so the second loop never starts a chain at an entry
that another bucket's chain runs through.

* The string data of a descriptor is `DexFile::GetStringView`, which is what
  both `GetStringView(str_id)` and `GetStringData(entry)` read.
* Each `while` loop of `Create` and `Lookup` runs through `walkUntil` with
  `Size()` as its fuel: the model returns `none` where the source would go
  round a cycle forever.  `Lookup_exact` shows that no loop runs out on a
  table `Create` builds.
* `Open` keeps the bytes it is given; `Lookup` reads each entry from them as
  the source reads `entries_[pos]`.
-/

/-! ### Hashing -/

/-- `StartModifiedUtf8Hash()`. -/
def StartModifiedUtf8Hash : UInt32 := 0

/-- `UpdateModifiedUtf8Hash(hash, c)`. -/
def UpdateModifiedUtf8Hash (hash : UInt32) (c : UInt8) : UInt32 :=
  hash * 31 + c.toUInt32

/-- `ComputeModifiedUtf8Hash(std::string_view chars)`. -/
def ComputeModifiedUtf8Hash (chars : List UInt8) : UInt32 :=
  chars.foldl UpdateModifiedUtf8Hash StartModifiedUtf8Hash

/-- `dex::ClassDef`: the type of the class, the one field the table reads. -/
structure ClassDef where
  class_idx_ : UInt16
  deriving Repr, DecidableEq, Inhabited

/-- The string id of the descriptor of class definition `class_def_idx`:
`GetStringId(GetTypeId(GetClassDef(class_def_idx).class_idx_).descriptor_idx_)`. -/
def ClassStringId (dex : DexFile) (class_defs : List ClassDef) (class_def_idx : Nat) : StringId :=
  dex.GetStringId (dex.GetTypeId (class_defs.getD class_def_idx default).class_idx_.toNat).descriptor_idx.toNat

/-- The descriptor of class definition `class_def_idx`. -/
def ClassDescriptor (dex : DexFile) (class_defs : List ClassDef) (class_def_idx : Nat) :
    List UInt8 :=
  dex.GetStringView (ClassStringId dex class_defs class_def_idx)

/-! ### Entries -/

/-- The fields of `TypeLookupTable`: the dex file whose string data the
entries point into, `mask_bits_`, and the bytes of the entries.  The invalid
table `TypeLookupTable()` has neither a dex file nor entries. -/
structure TypeLookupTable where
  dex_data_begin_ : Option DexFile
  mask_bits_ : UInt32
  entries_ : Option (List UInt8)

namespace TypeLookupTable

/-- `TypeLookupTable::Entry`. -/
structure Entry where
  str_offset_ : UInt32
  data_ : UInt32
  deriving Repr, DecidableEq

namespace Entry

/-- `Entry()`. -/
def empty : Entry := ⟨0, 0⟩

/-- `GetMask(mask_bits)`. -/
def GetMask (mask_bits : UInt32) : UInt32 :=
  ~~~(0xFFFFFFFF <<< mask_bits)

/-- `Entry(str_offset, hash, class_def_index, mask_bits)`. -/
def make (str_offset hash class_def_index mask_bits : UInt32) : Entry :=
  ⟨str_offset, ((hash &&& ~~~(GetMask mask_bits)) ||| class_def_index) <<< mask_bits⟩

/-- `SetNextPosDelta(next_pos_delta, mask_bits)`, whose `mask_bits` only the
source's `DCHECK`s read. -/
def SetNextPosDelta (entry : Entry) (next_pos_delta : UInt32) : Entry :=
  { entry with data_ := entry.data_ ||| next_pos_delta }

/-- `IsEmpty()`. -/
def IsEmpty (entry : Entry) : Bool :=
  entry.str_offset_ == 0

/-- `GetNextPosDelta(mask_bits)`. -/
def GetNextPosDelta (entry : Entry) (mask_bits : UInt32) : UInt32 :=
  entry.data_ &&& GetMask mask_bits

/-- `IsLast(mask_bits)`. -/
def IsLast (entry : Entry) (mask_bits : UInt32) : Bool :=
  entry.GetNextPosDelta mask_bits == 0

/-- `GetClassDefIdx(mask_bits)`. -/
def GetClassDefIdx (entry : Entry) (mask_bits : UInt32) : UInt32 :=
  (entry.data_ >>> mask_bits) &&& GetMask mask_bits

/-- `GetHashBits(mask_bits)`: `static_cast<uint64_t>(data_) >> (2u * mask_bits)`. -/
def GetHashBits (entry : Entry) (mask_bits : UInt32) : UInt32 :=
  (entry.data_.toUInt64 >>> (2 * mask_bits).toUInt64).toUInt32

/-- The eight bytes of an entry in memory. -/
def bytes (entry : Entry) : List UInt8 :=
  wordBytes entry.str_offset_ ++ wordBytes entry.data_

/-- `reinterpret_cast<const Entry*>(raw_data)[pos]`. -/
def load (raw_data : List UInt8) (pos : UInt32) : Entry :=
  ⟨loadWord raw_data (8 * pos.toNat), loadWord raw_data (8 * pos.toNat + 4)⟩

end Entry

/-- The entry at `pos` of the table `Create` builds. -/
def entryAt (entries : List Entry) (pos : UInt32) : Entry :=
  entries.getD pos.toNat Entry.empty

/-- The next position of a chain: `(pos + GetNextPosDelta(mask_bits)) & mask`. -/
def NextPos (entry : UInt32 → Entry) (mask_bits pos : UInt32) : UInt32 :=
  (pos + (entry pos).GetNextPosDelta mask_bits) &&& Entry.GetMask mask_bits

/-- The probe step of `Create`: `(insert_pos + 1u) & mask`. -/
def probeNext (mask_bits pos : UInt32) : UInt32 :=
  (pos + 1) &&& Entry.GetMask mask_bits

/-- The bits of a hash that `Lookup` compares with `GetHashBits`:
`static_cast<uint64_t>(hash << mask_bits_) >> (2 * mask_bits_)`. -/
def ComparedHashBits (hash mask_bits : UInt32) : UInt32 :=
  ((hash <<< mask_bits).toUInt64 >>> (2 * mask_bits).toUInt64).toUInt32

/-- `TypeLookupTable()`. -/
def invalid : TypeLookupTable := ⟨none, 0, none⟩

/-- `Valid()`. -/
def Valid (table : TypeLookupTable) : Bool :=
  table.entries_.isSome

/-- One pass of the first loop of `Create`: the class goes to the entry its
hash selects when that is empty, to `conflict_class_defs` otherwise. -/
def CreateFirstStage (dex : DexFile) (class_defs : List ClassDef) (mask_bits : UInt32)
    (state : List Entry × List UInt16) (class_def_idx : Nat) : List Entry × List UInt16 :=
  let str_id := ClassStringId dex class_defs class_def_idx
  let hash := ComputeModifiedUtf8Hash (dex.GetStringView str_id)
  let pos := hash &&& Entry.GetMask mask_bits
  if (entryAt state.1 pos).IsEmpty then
    (state.1.set pos.toNat
      (Entry.make str_id.string_data_off hash class_def_idx.toUInt32 mask_bits), state.2)
  else (state.1, state.2 ++ [class_def_idx.toUInt16])

/-- One pass of the second loop of `Create`: walk to the last entry of the
chain the hash selects, probe from there for an empty entry, and append the
class there.  `none` where one of the two loops would not stop within
`1 << mask_bits` steps. -/
def CreateSecondStage (dex : DexFile) (class_defs : List ClassDef) (mask_bits : UInt32)
    (entries : List Entry) (class_def_idx : UInt16) : Option (List Entry) := do
  let str_id := ClassStringId dex class_defs class_def_idx.toNat
  let hash := ComputeModifiedUtf8Hash (dex.GetStringView str_id)
  let mask := Entry.GetMask mask_bits
  let size := (1 <<< mask_bits : UInt32).toNat
  -- Find the last entry in the chain.
  let tail_pos ← walkUntil (NextPos (entryAt entries) mask_bits)
    (fun pos => (entryAt entries pos).IsLast mask_bits) size (hash &&& mask)
  -- Find an empty entry for insertion.
  let insert_pos ← walkUntil (probeNext mask_bits)
    (fun pos => (entryAt entries pos).IsEmpty) size (probeNext mask_bits tail_pos)
  -- Insert and chain the new entry.
  let entries := entries.set insert_pos.toNat
    (Entry.make str_id.string_data_off hash class_def_idx.toUInt32 mask_bits)
  pure (entries.modify tail_pos.toNat (·.SetNextPosDelta ((insert_pos - tail_pos) &&& mask)))

end TypeLookupTable

namespace TypeLookupTable

section Bits

/-! ### The packed word of an entry

With `n = mask_bits ≤ 16`, the word of an entry made for a class holds the
delta to the next entry of its chain in its low `n` bits, the class
definition index in the next `n`, and the bits of the hash from `n` up above
them.  Each accessor reads one of these fields, and `ComparedHashBits` reads
from a hash the bits `GetHashBits` keeps. -/

/-- Clearing the low `n` bits of a number below `2 ^ w`. -/
theorem and_two_pow_sub_two_pow {h w n : Nat} (below : h < 2 ^ w) (le : n ≤ w) :
    h &&& (2 ^ w - 2 ^ n) = 2 ^ n * (h / 2 ^ n) := by
  have highMask : 2 ^ w - 2 ^ n = (2 ^ (w - n) - 1) * 2 ^ n := by
    rw [Nat.sub_one_mul, ← Nat.pow_add, Nat.sub_add_cancel le]
  apply Nat.eq_of_testBit_eq
  intro j
  rw [highMask, Nat.testBit_and, Nat.testBit_mul_two_pow, Nat.testBit_two_pow_mul,
    Nat.testBit_two_pow_sub_one, Nat.testBit_div_two_pow]
  by_cases low : n ≤ j
  · by_cases high : j < w
    · simp [low, show j - n < w - n by omega, Nat.sub_add_cancel low]
    · -- Above `w` the number has no bits.
      have beyond : h < 2 ^ j := Nat.lt_of_lt_of_le below (Nat.pow_le_pow_right (by decide) (by omega))
      simp [low, show ¬ j - n < w - n by omega, Nat.sub_add_cancel low,
        Nat.testBit_lt_two_pow beyond]
  · simp [low]

namespace Entry

variable {mask_bits : UInt32}

theorem toNat_GetMask (small : mask_bits.toNat ≤ 16) :
    (GetMask mask_bits).toNat = 2 ^ mask_bits.toNat - 1 := by
  have positive : 1 ≤ 2 ^ mask_bits.toNat := Nat.one_le_two_pow
  have bounded : 2 ^ mask_bits.toNat ≤ 2 ^ 16 := Nat.pow_le_pow_right (by decide) small
  rw [GetMask, UInt32.toNat_not, UInt32.toNat_shiftLeft,
    Nat.mod_eq_of_lt (by omega : mask_bits.toNat < 32), Nat.shiftLeft_eq]
  simp only [UInt32.reduceToNat, UInt32.size]
  omega

theorem toNat_and_GetMask (small : mask_bits.toNat ≤ 16) (x : UInt32) :
    (x &&& GetMask mask_bits).toNat = x.toNat % 2 ^ mask_bits.toNat := by
  rw [UInt32.toNat_and, toNat_GetMask small, Nat.and_two_pow_sub_one_eq_mod]

theorem toNat_GetNextPosDelta (small : mask_bits.toNat ≤ 16) (entry : Entry) :
    (entry.GetNextPosDelta mask_bits).toNat = entry.data_.toNat % 2 ^ mask_bits.toNat :=
  toNat_and_GetMask small entry.data_

theorem toNat_GetClassDefIdx (small : mask_bits.toNat ≤ 16) (entry : Entry) :
    (entry.GetClassDefIdx mask_bits).toNat =
      entry.data_.toNat / 2 ^ mask_bits.toNat % 2 ^ mask_bits.toNat := by
  rw [GetClassDefIdx, toNat_and_GetMask small, UInt32.toNat_shiftRight,
    Nat.mod_eq_of_lt (by omega : mask_bits.toNat < 32), Nat.shiftRight_eq_div_pow]

theorem toNat_GetHashBits (small : mask_bits.toNat ≤ 16) (entry : Entry) :
    (entry.GetHashBits mask_bits).toNat =
      entry.data_.toNat / (2 ^ mask_bits.toNat * 2 ^ mask_bits.toNat) := by
  have doubled : (2 * mask_bits).toUInt64.toNat % 64 = mask_bits.toNat + mask_bits.toNat := by
    rw [UInt32.toNat_toUInt64, UInt32.toNat_mul]
    simp only [UInt32.reduceToNat]
    omega
  have below := entry.data_.toNat_lt
  rw [GetHashBits, UInt64.toNat_toUInt32, UInt64.toNat_shiftRight, UInt32.toNat_toUInt64, doubled,
    Nat.shiftRight_eq_div_pow, Nat.pow_add]
  exact Nat.mod_eq_of_lt (Nat.lt_of_le_of_lt (Nat.div_le_self _ _) below)

/-- The word `Entry(str_offset, hash, class_def_index, mask_bits)` packs. -/
theorem toNat_data_make (small : mask_bits.toNat ≤ 16) {class_def_index : UInt32}
    (fits : class_def_index.toNat < 2 ^ mask_bits.toNat) (str_offset hash : UInt32) :
    (make str_offset hash class_def_index mask_bits).data_.toNat =
      (2 ^ mask_bits.toNat * (hash.toNat / 2 ^ mask_bits.toNat) + class_def_index.toNat) *
        2 ^ mask_bits.toNat % 2 ^ 32 := by
  have positive : 1 ≤ 2 ^ mask_bits.toNat := Nat.one_le_two_pow
  have highBits : (hash &&& ~~~GetMask mask_bits).toNat =
      2 ^ mask_bits.toNat * (hash.toNat / 2 ^ mask_bits.toNat) := by
    rw [UInt32.toNat_and, UInt32.toNat_not, toNat_GetMask small, UInt32.size,
      show 4294967296 - 1 - (2 ^ mask_bits.toNat - 1) = 2 ^ 32 - 2 ^ mask_bits.toNat by omega]
    exact and_two_pow_sub_two_pow hash.toNat_lt (by omega)
  rw [make, UInt32.toNat_shiftLeft, UInt32.toNat_or, highBits,
    ← Nat.two_pow_add_eq_or_of_lt fits, Nat.mod_eq_of_lt (by omega : mask_bits.toNat < 32),
    Nat.shiftLeft_eq]

/-- `2 ^ mask_bits` divides `2 ^ 32`, with room for a second field. -/
theorem two_pow_mul_two_pow_dvd (small : mask_bits.toNat ≤ 16) :
    2 ^ mask_bits.toNat * 2 ^ mask_bits.toNat ∣ 2 ^ 32 := by
  rw [← Nat.pow_add]
  exact Nat.pow_dvd_pow 2 (by omega)

theorem GetNextPosDelta_make (small : mask_bits.toNat ≤ 16) {class_def_index : UInt32}
    (fits : class_def_index.toNat < 2 ^ mask_bits.toNat) (str_offset hash : UInt32) :
    (make str_offset hash class_def_index mask_bits).GetNextPosDelta mask_bits = 0 := by
  apply UInt32.toNat_inj.mp
  rw [toNat_GetNextPosDelta small, toNat_data_make small fits,
    Nat.mod_mod_of_dvd _ (Nat.dvd_trans (Nat.dvd_mul_right _ _) (two_pow_mul_two_pow_dvd small)),
    Nat.mul_mod_left]
  rfl

/-- The bits of the word above its low `n`, below `2 ^ 32`. -/
theorem data_make_div (small : mask_bits.toNat ≤ 16) {class_def_index : UInt32}
    (fits : class_def_index.toNat < 2 ^ mask_bits.toNat) (str_offset hash : UInt32) :
    (make str_offset hash class_def_index mask_bits).data_.toNat / 2 ^ mask_bits.toNat =
      (2 ^ mask_bits.toNat * (hash.toNat / 2 ^ mask_bits.toNat) + class_def_index.toNat) %
        2 ^ (32 - mask_bits.toNat) := by
  have split : (2 : Nat) ^ 32 = 2 ^ (32 - mask_bits.toNat) * 2 ^ mask_bits.toNat := by
    rw [← Nat.pow_add, Nat.sub_add_cancel (by omega)]
  rw [toNat_data_make small fits, split, Nat.mul_mod_mul_right,
    Nat.mul_div_cancel _ (Nat.two_pow_pos _)]

theorem GetClassDefIdx_make (small : mask_bits.toNat ≤ 16) {class_def_index : UInt32}
    (fits : class_def_index.toNat < 2 ^ mask_bits.toNat) (str_offset hash : UInt32) :
    (make str_offset hash class_def_index mask_bits).GetClassDefIdx mask_bits = class_def_index := by
  apply UInt32.toNat_inj.mp
  rw [toNat_GetClassDefIdx small, data_make_div small fits,
    Nat.mod_mod_of_dvd _ (Nat.pow_dvd_pow 2 (by omega)), Nat.mul_add_mod,
    Nat.mod_eq_of_lt fits]

/-- The hash bits of a word: those of the hash from `n` up, below `32 - n`. -/
theorem toNat_GetHashBits_make (small : mask_bits.toNat ≤ 16) {class_def_index : UInt32}
    (fits : class_def_index.toNat < 2 ^ mask_bits.toNat) (str_offset hash : UInt32) :
    ((make str_offset hash class_def_index mask_bits).GetHashBits mask_bits).toNat =
      hash.toNat / 2 ^ mask_bits.toNat % 2 ^ (32 - mask_bits.toNat - mask_bits.toNat) := by
  have split : (2 : Nat) ^ (32 - mask_bits.toNat) =
      2 ^ mask_bits.toNat * 2 ^ (32 - mask_bits.toNat - mask_bits.toNat) := by
    rw [← Nat.pow_add, Nat.add_sub_cancel' (by omega)]
  rw [toNat_GetHashBits small, ← Nat.div_div_eq_div_mul, data_make_div small fits, split,
    Nat.mod_mul_right_div_self, Nat.mul_add_div (Nat.two_pow_pos _),
    Nat.div_eq_of_lt fits, Nat.add_zero]

/-- Setting the delta of an entry whose delta is zero adds it to the word. -/
theorem toNat_data_SetNextPosDelta {entry : Entry}
    (unlinked : entry.data_.toNat % 2 ^ mask_bits.toNat = 0) {next_pos_delta : UInt32}
    (fits : next_pos_delta.toNat < 2 ^ mask_bits.toNat) :
    (entry.SetNextPosDelta next_pos_delta).data_.toNat = entry.data_.toNat + next_pos_delta.toNat := by
  have aligned : entry.data_.toNat = 2 ^ mask_bits.toNat * (entry.data_.toNat / 2 ^ mask_bits.toNat) :=
    (Nat.mul_div_cancel' (Nat.dvd_of_mod_eq_zero unlinked)).symm
  rw [SetNextPosDelta, UInt32.toNat_or, aligned, ← Nat.two_pow_add_eq_or_of_lt fits]

theorem GetNextPosDelta_SetNextPosDelta (small : mask_bits.toNat ≤ 16) {entry : Entry}
    (unlinked : entry.GetNextPosDelta mask_bits = 0) {next_pos_delta : UInt32}
    (fits : next_pos_delta.toNat < 2 ^ mask_bits.toNat) :
    (entry.SetNextPosDelta next_pos_delta).GetNextPosDelta mask_bits = next_pos_delta := by
  have zero : entry.data_.toNat % 2 ^ mask_bits.toNat = 0 := by
    rw [← toNat_GetNextPosDelta small, unlinked]
    rfl
  apply UInt32.toNat_inj.mp
  rw [toNat_GetNextPosDelta small, toNat_data_SetNextPosDelta zero fits, Nat.add_mod, zero,
    Nat.zero_add, Nat.mod_mod, Nat.mod_eq_of_lt fits]

/-- Setting the delta keeps the fields above it. -/
theorem data_SetNextPosDelta_div (small : mask_bits.toNat ≤ 16) {entry : Entry}
    (unlinked : entry.GetNextPosDelta mask_bits = 0) {next_pos_delta : UInt32}
    (fits : next_pos_delta.toNat < 2 ^ mask_bits.toNat) :
    (entry.SetNextPosDelta next_pos_delta).data_.toNat / 2 ^ mask_bits.toNat =
      entry.data_.toNat / 2 ^ mask_bits.toNat := by
  have zero : entry.data_.toNat % 2 ^ mask_bits.toNat = 0 := by
    rw [← toNat_GetNextPosDelta small, unlinked]
    rfl
  obtain ⟨fields, aligned⟩ := Nat.dvd_of_mod_eq_zero zero
  rw [toNat_data_SetNextPosDelta zero fits, aligned, Nat.mul_add_div (Nat.two_pow_pos _),
    Nat.mul_div_cancel_left _ (Nat.two_pow_pos _), Nat.div_eq_of_lt fits, Nat.add_zero]

theorem GetClassDefIdx_SetNextPosDelta (small : mask_bits.toNat ≤ 16) {entry : Entry}
    (unlinked : entry.GetNextPosDelta mask_bits = 0) {next_pos_delta : UInt32}
    (fits : next_pos_delta.toNat < 2 ^ mask_bits.toNat) :
    (entry.SetNextPosDelta next_pos_delta).GetClassDefIdx mask_bits =
      entry.GetClassDefIdx mask_bits := by
  apply UInt32.toNat_inj.mp
  rw [toNat_GetClassDefIdx small, toNat_GetClassDefIdx small,
    data_SetNextPosDelta_div small unlinked fits]

theorem GetHashBits_SetNextPosDelta (small : mask_bits.toNat ≤ 16) {entry : Entry}
    (unlinked : entry.GetNextPosDelta mask_bits = 0) {next_pos_delta : UInt32}
    (fits : next_pos_delta.toNat < 2 ^ mask_bits.toNat) :
    (entry.SetNextPosDelta next_pos_delta).GetHashBits mask_bits = entry.GetHashBits mask_bits := by
  apply UInt32.toNat_inj.mp
  rw [toNat_GetHashBits small, toNat_GetHashBits small, ← Nat.div_div_eq_div_mul,
    ← Nat.div_div_eq_div_mul, data_SetNextPosDelta_div small unlinked fits]

end Entry

theorem toNat_ComparedHashBits {mask_bits : UInt32} (small : mask_bits.toNat ≤ 16)
    (hash : UInt32) :
    (ComparedHashBits hash mask_bits).toNat =
      hash.toNat / 2 ^ mask_bits.toNat % 2 ^ (32 - mask_bits.toNat - mask_bits.toNat) := by
  have doubled : (2 * mask_bits).toUInt64.toNat % 64 = mask_bits.toNat + mask_bits.toNat := by
    rw [UInt32.toNat_toUInt64, UInt32.toNat_mul]
    simp only [UInt32.reduceToNat]
    omega
  have split : (2 : Nat) ^ 32 =
      2 ^ mask_bits.toNat * 2 ^ (32 - mask_bits.toNat - mask_bits.toNat) * 2 ^ mask_bits.toNat := by
    rw [← Nat.pow_add, ← Nat.pow_add]
    congr 1
    omega
  have below : (hash.toNat <<< (mask_bits.toNat % 32) % 2 ^ 32) / 2 ^ (mask_bits.toNat + mask_bits.toNat) < 2 ^ 32 :=
    Nat.lt_of_le_of_lt (Nat.div_le_self _ _) (Nat.mod_lt _ (Nat.two_pow_pos _))
  rw [ComparedHashBits, UInt64.toNat_toUInt32, UInt64.toNat_shiftRight, UInt32.toNat_toUInt64,
    UInt32.toNat_shiftLeft, doubled, Nat.shiftRight_eq_div_pow, Nat.mod_eq_of_lt below,
    Nat.mod_eq_of_lt (by omega : mask_bits.toNat < 32), Nat.shiftLeft_eq, split,
    Nat.mul_mod_mul_right, Nat.pow_add, Nat.mul_div_mul_right _ _ (Nat.two_pow_pos _),
    Nat.mod_mul_right_div_self]

/-- The bits `Lookup` compares are the hash bits of the entry made for the
hash. -/
theorem GetHashBits_make {mask_bits : UInt32} (small : mask_bits.toNat ≤ 16)
    {class_def_index : UInt32} (fits : class_def_index.toNat < 2 ^ mask_bits.toNat)
    (str_offset hash : UInt32) :
    (Entry.make str_offset hash class_def_index mask_bits).GetHashBits mask_bits =
      ComparedHashBits hash mask_bits :=
  UInt32.toNat_inj.mp (by
    rw [Entry.toNat_GetHashBits_make small fits, toNat_ComparedHashBits small])

/-! ### Positions

A position below `2 ^ mask_bits` is an entry of the table.  The chain and
probe steps add modulo `2 ^ 32` and then mask, which is adding modulo
`2 ^ mask_bits` since that divides `2 ^ 32`. -/

theorem two_pow_dvd_two_pow_32 {mask_bits : UInt32} (small : mask_bits.toNat ≤ 16) :
    2 ^ mask_bits.toNat ∣ 2 ^ 32 :=
  Nat.pow_dvd_pow 2 (by omega)

theorem and_GetMask_of_lt {mask_bits : UInt32} (small : mask_bits.toNat ≤ 16) {pos : UInt32}
    (inside : pos.toNat < 2 ^ mask_bits.toNat) : pos &&& Entry.GetMask mask_bits = pos :=
  UInt32.toNat_inj.mp (by rw [Entry.toNat_and_GetMask small, Nat.mod_eq_of_lt inside])

theorem toNat_and_GetMask_lt {mask_bits : UInt32} (small : mask_bits.toNat ≤ 16) (pos : UInt32) :
    (pos &&& Entry.GetMask mask_bits).toNat < 2 ^ mask_bits.toNat := by
  rw [Entry.toNat_and_GetMask small]
  exact Nat.mod_lt _ (Nat.two_pow_pos _)

/-- The chain step goes to the position the delta of the entry points at. -/
theorem NextPos_of_delta {mask_bits : UInt32} (small : mask_bits.toNat ≤ 16)
    {entry : UInt32 → Entry} {pos target : UInt32} (inside : target.toNat < 2 ^ mask_bits.toNat)
    (delta : (entry pos).GetNextPosDelta mask_bits = (target - pos) &&& Entry.GetMask mask_bits) :
    NextPos entry mask_bits pos = target := by
  have dvd := two_pow_dvd_two_pow_32 small
  obtain ⟨rounds, whole⟩ := dvd
  have below := pos.toNat_lt
  apply UInt32.toNat_inj.mp
  rw [NextPos, Entry.toNat_and_GetMask small, UInt32.toNat_add, delta, Entry.toNat_and_GetMask small,
    UInt32.toNat_sub, Nat.mod_mod_of_dvd _ ⟨rounds, whole⟩, Nat.mod_mod_of_dvd _ ⟨rounds, whole⟩,
    Nat.add_mod_mod, show pos.toNat + (2 ^ 32 - pos.toNat + target.toNat) = 2 ^ 32 + target.toNat by
      omega,
    whole, Nat.mul_add_mod, Nat.mod_eq_of_lt inside]

theorem toNat_probeNext_iterate {mask_bits : UInt32} (small : mask_bits.toNat ≤ 16)
    {pos : UInt32} (inside : pos.toNat < 2 ^ mask_bits.toNat) :
    ∀ steps, ((probeNext mask_bits)^[steps] pos).toNat = (pos.toNat + steps) % 2 ^ mask_bits.toNat
  | 0 => (Nat.mod_eq_of_lt inside).symm
  | steps + 1 => by
    rw [Function.iterate_succ_apply', probeNext, Entry.toNat_and_GetMask small, UInt32.toNat_add,
      toNat_probeNext_iterate small inside steps,
      Nat.mod_mod_of_dvd _ (two_pow_dvd_two_pow_32 small), show (1 : UInt32).toNat = 1 from rfl,
      Nat.mod_add_mod,
      Nat.add_assoc]

/-- The probe from any entry reaches every entry within `2 ^ mask_bits` steps. -/
theorem probeNext_reaches {mask_bits : UInt32} (small : mask_bits.toNat ≤ 16) {pos target : UInt32}
    (inside : pos.toNat < 2 ^ mask_bits.toNat) (target_inside : target.toNat < 2 ^ mask_bits.toNat) :
    ∃ steps < 2 ^ mask_bits.toNat, (probeNext mask_bits)^[steps] pos = target := by
  refine ⟨(target.toNat + 2 ^ mask_bits.toNat - pos.toNat) % 2 ^ mask_bits.toNat,
    Nat.mod_lt _ (Nat.two_pow_pos _), UInt32.toNat_inj.mp ?_⟩
  rw [toNat_probeNext_iterate small inside, Nat.add_mod_mod,
    show pos.toNat + (target.toNat + 2 ^ mask_bits.toNat - pos.toNat) =
      target.toNat + 2 ^ mask_bits.toNat by omega,
    Nat.add_mod_right, Nat.mod_eq_of_lt target_inside]

/-- A class definition index below the size fits its field. -/
theorem toNat_toUInt32_lt {mask_bits : UInt32} (small : mask_bits.toNat ≤ 16) {class_def_idx : Nat}
    (fits : class_def_idx < 2 ^ mask_bits.toNat) : class_def_idx.toUInt32.toNat < 2 ^ mask_bits.toNat := by
  have bounded : 2 ^ mask_bits.toNat ≤ 2 ^ 32 := Nat.pow_le_pow_right (by decide) (by omega)
  rw [Nat.toUInt32_eq, UInt32.toNat_ofNat', Nat.mod_eq_of_lt (by omega)]
  exact fits

theorem IsLast_make {mask_bits : UInt32} (small : mask_bits.toNat ≤ 16) {class_def_index : UInt32}
    (fits : class_def_index.toNat < 2 ^ mask_bits.toNat) (str_offset hash : UInt32) :
    (Entry.make str_offset hash class_def_index mask_bits).IsLast mask_bits = true := by
  rw [Entry.IsLast, Entry.GetNextPosDelta_make small fits]
  rfl

theorem toNat_one_shiftLeft {mask_bits : UInt32} (small : mask_bits.toNat ≤ 16) :
    (1 <<< mask_bits : UInt32).toNat = 2 ^ mask_bits.toNat := by
  have bounded : 2 ^ mask_bits.toNat < 2 ^ 32 := Nat.pow_lt_pow_right (by decide) (by omega)
  rw [UInt32.toNat_shiftLeft, Nat.mod_eq_of_lt (by omega : mask_bits.toNat < 32), Nat.shiftLeft_eq,
    show (1 : UInt32).toNat = 1 from rfl, Nat.one_mul, Nat.mod_eq_of_lt bounded]

end Bits

/-! ### Entries at positions -/

section Positions

variable {entries : List Entry} {pos other : UInt32}

theorem entryAt_set_self (entry : Entry) (inside : pos.toNat < entries.length) :
    entryAt (entries.set pos.toNat entry) pos = entry := by
  rw [entryAt, List.getD_eq_getElem?_getD, List.getElem?_set_self inside, Option.getD_some]

theorem entryAt_set_ne (entry : Entry) (differs : other ≠ pos) :
    entryAt (entries.set pos.toNat entry) other = entryAt entries other := by
  rw [entryAt, entryAt, List.getD_eq_getElem?_getD, List.getD_eq_getElem?_getD,
    List.getElem?_set_ne (fun same => differs (UInt32.toNat_inj.mp same.symm))]

theorem entryAt_modify_self (change : Entry → Entry) (inside : pos.toNat < entries.length) :
    entryAt (entries.modify pos.toNat change) pos = change (entryAt entries pos) := by
  rw [entryAt, entryAt, List.getD_eq_getElem?_getD, List.getD_eq_getElem?_getD,
    List.getElem?_modify, List.getElem?_eq_getElem inside]
  simp

theorem entryAt_modify_ne (change : Entry → Entry) (differs : other ≠ pos) :
    entryAt (entries.modify pos.toNat change) other = entryAt entries other := by
  have apart : pos.toNat ≠ other.toNat := fun same => differs (UInt32.toNat_inj.mp same.symm)
  rw [entryAt, entryAt, List.getD_eq_getElem?_getD, List.getD_eq_getElem?_getD,
    List.getElem?_modify]
  simp [apart]

/-- A chain step reads only the entry it leaves. -/
theorem NextPos_congr {entry other_entry : UInt32 → Entry} {mask_bits : UInt32}
    (same : entry pos = other_entry pos) :
    NextPos entry mask_bits pos = NextPos other_entry mask_bits pos := by
  rw [NextPos, NextPos, same]

end Positions

/-! ### Chains

A chain is the list of positions `Lookup` walks: it starts at the entry a
hash selects, each position but the last steps to the next one, and only its
last entry is marked last.  `ChainFrom` says so of a list of positions, over
any reading of the entries. -/

/-- The positions `positions` form a chain from `home` in the entries `entry`
reads. -/
structure ChainFrom (entry : UInt32 → Entry) (mask_bits home : UInt32) (positions : List UInt32) :
    Prop where
  starts : ∀ nonempty : 0 < positions.length, positions[0] = home
  last : ∀ t (inChain : t < positions.length),
    (entry positions[t]).IsLast mask_bits = decide (t + 1 = positions.length)
  linked : ∀ t (inChain : t + 1 < positions.length),
    NextPos entry mask_bits positions[t] = positions[t + 1]

namespace ChainFrom

variable {entry other_entry : UInt32 → Entry} {mask_bits home : UInt32} {positions : List UInt32}

theorem nil : ChainFrom entry mask_bits home [] :=
  ⟨fun nonempty => absurd nonempty (Nat.lt_irrefl 0), fun _ inChain => absurd inChain (Nat.not_lt_zero _),
    fun _ inChain => absurd inChain (Nat.not_lt_zero _)⟩

theorem singleton (isLast : (entry home).IsLast mask_bits = true) :
    ChainFrom entry mask_bits home [home] where
  starts _ := rfl
  last t inChain := by
    have first : t = 0 := by simpa using inChain
    subst first
    simpa using isLast
  linked _ inChain := absurd inChain (by simp)

/-- A chain reads only the entries at its positions. -/
theorem congr (chain : ChainFrom entry mask_bits home positions)
    (unchanged : ∀ pos ∈ positions, other_entry pos = entry pos) :
    ChainFrom other_entry mask_bits home positions where
  starts := chain.starts
  last t inChain := by
    rw [unchanged _ (List.getElem_mem inChain)]
    exact chain.last t inChain
  linked t inChain := by
    rw [NextPos_congr (unchanged _ (List.getElem_mem (Nat.lt_of_succ_lt inChain)))]
    exact chain.linked t inChain

/-- Appending a position to a chain: the old last entry now steps to it, and
it is the new last one. -/
theorem snoc (chain : ChainFrom entry mask_bits home positions) (nonempty : 0 < positions.length)
    {added : UInt32}
    (unchanged : ∀ t (before : t + 1 < positions.length), other_entry positions[t] = entry positions[t])
    (tailLinked : NextPos other_entry mask_bits positions[positions.length - 1] = added)
    (tailNotLast : (other_entry positions[positions.length - 1]).IsLast mask_bits = false)
    (addedLast : (other_entry added).IsLast mask_bits = true) :
    ChainFrom other_entry mask_bits home (positions ++ [added]) where
  starts _ := by
    rw [List.getElem_append_left nonempty]
    exact chain.starts nonempty
  last t inChain := by
    rw [List.length_append, List.length_singleton] at inChain ⊢
    by_cases old : t < positions.length
    · rw [List.getElem_append_left old]
      by_cases tail : t + 1 = positions.length
      · have atTail : t = positions.length - 1 := by omega
        subst atTail
        rw [tailNotLast]
        simp only [Bool.false_eq, decide_eq_false_iff_not]
        omega
      · rw [unchanged t (by omega), chain.last t old]
        simp only [decide_eq_decide]
        omega
    · have atAdded : t = positions.length := by omega
      subst atAdded
      rw [List.getElem_append_right (Nat.le_refl _)]
      simpa using addedLast
  linked t inChain := by
    rw [List.length_append, List.length_singleton] at inChain
    rw [List.getElem_append_left (by omega)]
    by_cases tail : t + 1 = positions.length
    · have atTail : t = positions.length - 1 := by omega
      subst atTail
      rw [tailLinked, List.getElem_append_right (by omega)]
      simp [tail]
    · rw [NextPos_congr (unchanged t (by omega)), chain.linked t (by omega),
        List.getElem_append_left (by omega)]

end ChainFrom

/-! ### The layout `Create` builds

`Create` places each class at a position.  The chain of an entry is the list
of positions of the classes whose hash selects it, in the order `Create`
placed them.  `Layout` is what the entries built so far hold: every placed
class at its position, every other entry empty, and the chain of each entry
linked from that entry. -/

section Layout

variable (dex : DexFile) (class_defs : List ClassDef) (mask_bits : UInt32)

/-- The hash of the descriptor of class definition `class_def_idx`. -/
def classHash (class_def_idx : Nat) : UInt32 :=
  ComputeModifiedUtf8Hash (ClassDescriptor dex class_defs class_def_idx)

/-- The entry the hash of class definition `class_def_idx` selects. -/
def homePos (class_def_idx : Nat) : UInt32 :=
  classHash dex class_defs class_def_idx &&& Entry.GetMask mask_bits

/-- The positions of the placed classes whose hash selects `home`, in the
order they were placed. -/
def chain (placed : List (Nat × UInt32)) (home : UInt32) : List UInt32 :=
  (placed.filter fun placement => homePos dex class_defs mask_bits placement.1 == home).map Prod.snd

/-- An entry made for class definition `class_def_idx`. -/
structure Holds (entry : Entry) (class_def_idx : Nat) : Prop where
  offset : entry.str_offset_ = (ClassStringId dex class_defs class_def_idx).string_data_off
  index : entry.GetClassDefIdx mask_bits = class_def_idx.toUInt32
  hash_bits : entry.GetHashBits mask_bits =
    ComparedHashBits (classHash dex class_defs class_def_idx) mask_bits

/-- The entries hold the classes `placed` at their positions, nothing
elsewhere, and each entry's chain. -/
structure Layout (entries : List Entry) (placed : List (Nat × UInt32)) : Prop where
  length_eq : entries.length = 2 ^ mask_bits.toNat
  positions_nodup : (placed.map Prod.snd).Nodup
  classes_nodup : (placed.map Prod.fst).Nodup
  inside : ∀ placement ∈ placed, placement.2.toNat < 2 ^ mask_bits.toNat
  classes_lt : ∀ placement ∈ placed, placement.1 < class_defs.length
  holds : ∀ placement ∈ placed,
    Holds dex class_defs mask_bits (entryAt entries placement.2) placement.1
  empty : ∀ pos, pos ∉ placed.map Prod.snd → entryAt entries pos = Entry.empty
  chains : ∀ home,
    ChainFrom (entryAt entries) mask_bits home (chain dex class_defs mask_bits placed home)

variable {dex class_defs mask_bits}

theorem mem_chain {placed : List (Nat × UInt32)} {home pos : UInt32} :
    pos ∈ chain dex class_defs mask_bits placed home ↔
      ∃ class_def_idx, (class_def_idx, pos) ∈ placed ∧
        homePos dex class_defs mask_bits class_def_idx = home := by
  simp [chain]

theorem chain_append (placed : List (Nat × UInt32)) (class_def_idx : Nat) (pos home : UInt32) :
    chain dex class_defs mask_bits (placed ++ [(class_def_idx, pos)]) home =
      chain dex class_defs mask_bits placed home ++
        if homePos dex class_defs mask_bits class_def_idx = home then [pos] else [] := by
  by_cases selects : homePos dex class_defs mask_bits class_def_idx = home <;>
    simp [chain, List.filter_append, selects]

theorem chain_sublist (placed : List (Nat × UInt32)) (home : UInt32) :
    List.Sublist (chain dex class_defs mask_bits placed home) (placed.map Prod.snd) :=
  List.filter_sublist.map Prod.snd

theorem chain_nodup {placed : List (Nat × UInt32)} (distinct : (placed.map Prod.snd).Nodup)
    (home : UInt32) : (chain dex class_defs mask_bits placed home).Nodup :=
  distinct.sublist (chain_sublist placed home)

/-- A position is in the chain of one entry only. -/
theorem home_eq_of_mem_chain {placed : List (Nat × UInt32)} (distinct : (placed.map Prod.snd).Nodup)
    {pos home other_home : UInt32} (member : pos ∈ chain dex class_defs mask_bits placed home)
    (other_member : pos ∈ chain dex class_defs mask_bits placed other_home) : home = other_home := by
  obtain ⟨k, placedAt, selects⟩ := mem_chain.mp member
  obtain ⟨other_k, otherPlacedAt, otherSelects⟩ := mem_chain.mp other_member
  have same := List.inj_on_of_nodup_map distinct placedAt otherPlacedAt rfl
  cases same
  rw [← selects, ← otherSelects]

theorem holds_make (small : mask_bits.toNat ≤ 16) {class_def_idx : Nat}
    (fits : class_def_idx < 2 ^ mask_bits.toNat) :
    Holds dex class_defs mask_bits
      (Entry.make (ClassStringId dex class_defs class_def_idx).string_data_off
        (classHash dex class_defs class_def_idx) class_def_idx.toUInt32 mask_bits) class_def_idx := by
  have indexFits := toNat_toUInt32_lt small fits
  exact ⟨rfl, Entry.GetClassDefIdx_make small indexFits _ _, GetHashBits_make small indexFits _ _⟩

/-- Linking an entry to the next one of its chain keeps what it holds. -/
theorem holds_SetNextPosDelta (small : mask_bits.toNat ≤ 16) {entry : Entry} {class_def_idx : Nat}
    (holds : Holds dex class_defs mask_bits entry class_def_idx)
    (unlinked : entry.GetNextPosDelta mask_bits = 0) {next_pos_delta : UInt32}
    (fits : next_pos_delta.toNat < 2 ^ mask_bits.toNat) :
    Holds dex class_defs mask_bits (entry.SetNextPosDelta next_pos_delta) class_def_idx :=
  ⟨holds.offset, (Entry.GetClassDefIdx_SetNextPosDelta small unlinked fits).trans holds.index,
    (Entry.GetHashBits_SetNextPosDelta small unlinked fits).trans holds.hash_bits⟩

theorem layout_empty : Layout dex class_defs mask_bits
    (List.replicate (2 ^ mask_bits.toNat) Entry.empty) [] where
  length_eq := List.length_replicate
  positions_nodup := List.nodup_nil
  classes_nodup := List.nodup_nil
  inside _ absent := absurd absent List.not_mem_nil
  classes_lt _ absent := absurd absent List.not_mem_nil
  holds _ absent := absurd absent List.not_mem_nil
  empty pos _ := by
    rw [entryAt, List.getD_eq_getElem?_getD, List.getElem?_replicate]
    split <;> rfl
  chains _ := ChainFrom.nil

theorem nodup_append_singleton {α : Type} {items : List α} {item : α} (distinct : items.Nodup)
    (fresh : item ∉ items) : (items ++ [item]).Nodup := by
  rw [← List.concat_eq_append]
  exact distinct.concat fresh

namespace Layout

variable {entries : List Entry} {placed : List (Nat × UInt32)}

/-- The entry of a placed class is not empty, its string having a non-zero offset. -/
theorem isEmpty_placed (layout : Layout dex class_defs mask_bits entries placed)
    (offsets : ∀ k < class_defs.length, (ClassStringId dex class_defs k).string_data_off ≠ 0)
    {placement : Nat × UInt32} (member : placement ∈ placed) :
    (entryAt entries placement.2).IsEmpty = false := by
  rw [Entry.IsEmpty, (layout.holds placement member).offset]
  exact beq_false_of_ne (offsets _ (layout.classes_lt placement member))

/-- Only the entries of placed classes are not empty. -/
theorem mem_of_isEmpty_eq_false (layout : Layout dex class_defs mask_bits entries placed) {pos : UInt32}
    (full : (entryAt entries pos).IsEmpty = false) : pos ∈ placed.map Prod.snd := by
  by_contra absent
  rw [layout.empty pos absent] at full
  exact Bool.noConfusion full

/-- The first loop of `Create` placing a class at the entry its hash selects,
when that entry is free, in a table where every class sits at its own entry. -/
theorem place_home (small : mask_bits.toNat ≤ 16) (layout : Layout dex class_defs mask_bits entries placed)
    (atHome : ∀ placement ∈ placed, placement.2 = homePos dex class_defs mask_bits placement.1)
    {class_def_idx : Nat} (fresh : class_def_idx ∉ placed.map Prod.fst)
    (exists_def : class_def_idx < class_defs.length) (fits : class_def_idx < 2 ^ mask_bits.toNat)
    (free : homePos dex class_defs mask_bits class_def_idx ∉ placed.map Prod.snd) :
    Layout dex class_defs mask_bits
      (entries.set (homePos dex class_defs mask_bits class_def_idx).toNat
        (Entry.make (ClassStringId dex class_defs class_def_idx).string_data_off
          (classHash dex class_defs class_def_idx) class_def_idx.toUInt32 mask_bits))
      (placed ++ [(class_def_idx, homePos dex class_defs mask_bits class_def_idx)]) := by
  set home := homePos dex class_defs mask_bits class_def_idx
  have homeInside : home.toNat < entries.length := by
    rw [layout.length_eq]
    exact toNat_and_GetMask_lt small _
  -- No class sits in the chain of a free entry: each sits at its own entry.
  have emptyChain : chain dex class_defs mask_bits placed home = [] := by
    apply List.eq_nil_iff_forall_not_mem.mpr
    intro pos member
    obtain ⟨k, placedAt, selects⟩ := mem_chain.mp member
    have atSelected : pos = home := (atHome _ placedAt).trans selects
    subst atSelected
    exact free (List.mem_map.mpr ⟨_, placedAt, rfl⟩)
  have unchanged : ∀ pos ∈ placed.map Prod.snd, entryAt (entries.set home.toNat
      (Entry.make (ClassStringId dex class_defs class_def_idx).string_data_off
        (classHash dex class_defs class_def_idx) class_def_idx.toUInt32 mask_bits)) pos =
        entryAt entries pos :=
    fun pos member => entryAt_set_ne _ fun same => free (same ▸ member)
  refine ⟨by rw [List.length_set, layout.length_eq], ?_, ?_, ?_, ?_, ?_, ?_, ?_⟩
  · rw [List.map_append]
    exact nodup_append_singleton layout.positions_nodup free
  · rw [List.map_append]
    exact nodup_append_singleton layout.classes_nodup fresh
  · intro placement member
    rcases List.mem_append.mp member with old | added
    · exact layout.inside placement old
    · rw [List.mem_singleton.mp added]
      exact toNat_and_GetMask_lt small _
  · intro placement member
    rcases List.mem_append.mp member with old | added
    · exact layout.classes_lt placement old
    · rw [List.mem_singleton.mp added]
      exact exists_def
  · intro placement member
    rcases List.mem_append.mp member with old | added
    · rw [unchanged _ (List.mem_map_of_mem old)]
      exact layout.holds placement old
    · rw [List.mem_singleton.mp added, entryAt_set_self _ homeInside]
      exact holds_make small fits
  · intro pos absent
    rw [List.map_append, List.mem_append, not_or] at absent
    rw [entryAt_set_ne _ fun same => absent.2 (by simp [same]), layout.empty pos absent.1]
  · intro selected
    rw [chain_append]
    by_cases selects : home = selected
    · subst selects
      rw [if_pos rfl, emptyChain, List.nil_append]
      apply ChainFrom.singleton
      rw [entryAt_set_self _ homeInside]
      exact IsLast_make small (toNat_toUInt32_lt small fits) _ _
    · rw [if_neg selects, List.append_nil]
      exact (layout.chains selected).congr fun pos member =>
        unchanged pos ((chain_sublist placed selected).subset member)

/-- The last entry of a chain is marked last. -/
theorem isLast_tail (layout : Layout dex class_defs mask_bits entries placed) {home : UInt32}
    (nonempty : 0 < (chain dex class_defs mask_bits placed home).length) :
    (entryAt entries (chain dex class_defs mask_bits placed home)[
      (chain dex class_defs mask_bits placed home).length - 1]).IsLast mask_bits = true := by
  rw [(layout.chains home).last _ (by omega)]
  simp only [decide_eq_true_eq]
  omega

/-- The second loop of `Create` appending a class to the chain of the entry
its hash selects, at a free entry `insert_pos`, and linking the old last
entry `tail_pos` of the chain to it. -/
theorem append_chain (small : mask_bits.toNat ≤ 16) (layout : Layout dex class_defs mask_bits entries placed)
    {class_def_idx : Nat} (fresh : class_def_idx ∉ placed.map Prod.fst)
    (exists_def : class_def_idx < class_defs.length) (fits : class_def_idx < 2 ^ mask_bits.toNat)
    {home : UInt32} (selects : homePos dex class_defs mask_bits class_def_idx = home)
    {tail_pos : UInt32} (isTail : (chain dex class_defs mask_bits placed home).getLast? = some tail_pos)
    {insert_pos : UInt32} (insertInside : insert_pos.toNat < 2 ^ mask_bits.toNat)
    (free : insert_pos ∉ placed.map Prod.snd) :
    Layout dex class_defs mask_bits
      ((entries.set insert_pos.toNat
        (Entry.make (ClassStringId dex class_defs class_def_idx).string_data_off
          (classHash dex class_defs class_def_idx) class_def_idx.toUInt32 mask_bits)).modify
        tail_pos.toNat (·.SetNextPosDelta ((insert_pos - tail_pos) &&& Entry.GetMask mask_bits)))
      (placed ++ [(class_def_idx, insert_pos)]) := by
  rw [List.getLast?_eq_getElem?] at isTail
  obtain ⟨tailIndex, tailIs⟩ := List.getElem?_eq_some_iff.mp isTail
  have nonempty : 0 < (chain dex class_defs mask_bits placed home).length := by omega
  have tailInChain : tail_pos ∈ chain dex class_defs mask_bits placed home :=
    tailIs ▸ List.getElem_mem _
  have tailPlaced : tail_pos ∈ placed.map Prod.snd := (chain_sublist placed home).subset tailInChain
  have tailApart : tail_pos ≠ insert_pos := fun same => free (same ▸ tailPlaced)
  have tailInside : tail_pos.toNat < 2 ^ mask_bits.toNat := by
    obtain ⟨placement, member, atTail⟩ := List.mem_map.mp tailPlaced
    rw [← atTail]
    exact layout.inside placement member
  have unlinked : (entryAt entries tail_pos).GetNextPosDelta mask_bits = 0 := by
    have isLast := (layout.chains home).last _ tailIndex
    rw [tailIs, Entry.IsLast, decide_eq_true (by omega)] at isLast
    exact eq_of_beq isLast
  have deltaFits : ((insert_pos - tail_pos) &&& Entry.GetMask mask_bits).toNat < 2 ^ mask_bits.toNat :=
    toNat_and_GetMask_lt small _
  obtain ⟨added, addedIs⟩ : ∃ entry, Entry.make (ClassStringId dex class_defs class_def_idx).string_data_off
      (classHash dex class_defs class_def_idx) class_def_idx.toUInt32 mask_bits = entry := ⟨_, rfl⟩
  obtain ⟨built, builtIs⟩ : ∃ built, (entries.set insert_pos.toNat added).modify tail_pos.toNat
      (·.SetNextPosDelta ((insert_pos - tail_pos) &&& Entry.GetMask mask_bits)) = built := ⟨_, rfl⟩
  rw [addedIs, builtIs]
  -- What the two writes leave at each position.
  have lengthBuilt : built.length = 2 ^ mask_bits.toNat := by
    rw [← builtIs, List.length_modify, List.length_set, layout.length_eq]
  have atTail : entryAt built tail_pos =
      (entryAt entries tail_pos).SetNextPosDelta ((insert_pos - tail_pos) &&& Entry.GetMask mask_bits) := by
    rw [← builtIs, entryAt_modify_self _ (by rw [List.length_set, layout.length_eq]; exact tailInside),
      entryAt_set_ne _ tailApart]
  have atInsert : entryAt built insert_pos = added := by
    rw [← builtIs, entryAt_modify_ne _ tailApart.symm,
      entryAt_set_self _ (by rw [layout.length_eq]; exact insertInside)]
  have elsewhere : ∀ pos, pos ≠ tail_pos → pos ≠ insert_pos → entryAt built pos = entryAt entries pos :=
    fun pos notTail notInsert => by rw [← builtIs, entryAt_modify_ne _ notTail, entryAt_set_ne _ notInsert]
  have addedHolds : Holds dex class_defs mask_bits added class_def_idx := addedIs ▸ holds_make small fits
  have tailLinked : NextPos (entryAt built) mask_bits tail_pos = insert_pos := by
    apply NextPos_of_delta small insertInside
    rw [atTail, Entry.GetNextPosDelta_SetNextPosDelta small unlinked deltaFits]
  -- A zero delta would step from the old last entry to itself.
  have tailNotLast : (entryAt built tail_pos).IsLast mask_bits = false := by
    rw [Entry.IsLast, beq_eq_false_iff_ne]
    intro noDelta
    have toItself : NextPos (entryAt built) mask_bits tail_pos = tail_pos :=
      NextPos_of_delta small tailInside (by rw [noDelta, UInt32.sub_self, UInt32.zero_and])
    exact tailApart (toItself.symm.trans tailLinked)
  have unplaced : ∀ pos ∈ placed.map Prod.snd, pos ≠ insert_pos := fun pos member same => free (same ▸ member)
  refine ⟨lengthBuilt, ?_, ?_, ?_, ?_, ?_, ?_, ?_⟩
  · rw [List.map_append]
    exact nodup_append_singleton layout.positions_nodup free
  · rw [List.map_append]
    exact nodup_append_singleton layout.classes_nodup fresh
  · intro placement member
    rcases List.mem_append.mp member with old | new
    · exact layout.inside placement old
    · rw [List.mem_singleton.mp new]
      exact insertInside
  · intro placement member
    rcases List.mem_append.mp member with old | new
    · exact layout.classes_lt placement old
    · rw [List.mem_singleton.mp new]
      exact exists_def
  · intro placement member
    rcases List.mem_append.mp member with old | new
    · by_cases atOldTail : placement.2 = tail_pos
      · rw [atOldTail, atTail]
        exact holds_SetNextPosDelta small (atOldTail ▸ layout.holds placement old) unlinked deltaFits
      · rw [elsewhere _ atOldTail (unplaced _ (List.mem_map_of_mem old))]
        exact layout.holds placement old
    · rw [List.mem_singleton.mp new, atInsert]
      exact addedHolds
  · intro pos absent
    rw [List.map_append, List.mem_append, not_or] at absent
    have notInsert : pos ≠ insert_pos := fun same => absent.2 (by simp [same])
    have notTail : pos ≠ tail_pos := fun same => absent.1 (same ▸ tailPlaced)
    rw [elsewhere pos notTail notInsert, layout.empty pos absent.1]
  · intro selected
    rw [chain_append]
    by_cases sameHome : homePos dex class_defs mask_bits class_def_idx = selected
    · rw [if_pos sameHome]
      rw [selects] at sameHome
      subst sameHome
      have addedLast : (entryAt built insert_pos).IsLast mask_bits = true := by
        rw [atInsert, ← addedIs]
        exact IsLast_make small (toNat_toUInt32_lt small fits) _ _
      refine (layout.chains home).snoc nonempty (fun t before => ?_) (by rw [tailIs]; exact tailLinked)
        (by rw [tailIs]; exact tailNotLast) addedLast
      have notTail : (chain dex class_defs mask_bits placed home)[t] ≠ tail_pos := by
        rw [← tailIs]
        intro same
        have := (List.Nodup.getElem_inj_iff (chain_nodup layout.positions_nodup home)).mp same
        omega
      exact elsewhere _ notTail
        (unplaced _ ((chain_sublist placed home).subset (List.getElem_mem _)))
    · rw [if_neg sameHome, List.append_nil]
      refine (layout.chains selected).congr fun pos member => elsewhere pos ?_
        (unplaced _ ((chain_sublist placed selected).subset member))
      rintro rfl
      exact sameHome (selects.trans (home_eq_of_mem_chain layout.positions_nodup tailInChain member))

/-- A chain has no more positions than the table has entries. -/
theorem length_chain_le (layout : Layout dex class_defs mask_bits entries placed) (home : UInt32) :
    (chain dex class_defs mask_bits placed home).length ≤ 2 ^ mask_bits.toNat := by
  have distinct : ((chain dex class_defs mask_bits placed home).map UInt32.toNat).Nodup :=
    (chain_nodup layout.positions_nodup home).map fun _ _ same => UInt32.toNat_inj.mp same
  have within : (chain dex class_defs mask_bits placed home).map UInt32.toNat ⊆
      List.range (2 ^ mask_bits.toNat) := by
    intro index member
    obtain ⟨pos, inChain, rfl⟩ := List.mem_map.mp member
    obtain ⟨placement, placedAt, atPos⟩ := List.mem_map.mp ((chain_sublist placed home).subset inChain)
    rw [List.mem_range, ← atPos]
    exact layout.inside placement placedAt
  simpa using distinct.length_le_of_subset within

end Layout

end Layout

/-- Fewer positions than `bound ≤ 2 ^ 32` leave one below `bound` free. -/
theorem exists_free {positions : List UInt32} {bound : Nat} (fewer : positions.length < bound)
    (fits : bound ≤ 2 ^ 32) : ∃ pos : UInt32, pos.toNat < bound ∧ pos ∉ positions := by
  apply Classical.byContradiction
  intro full
  have within : List.range bound ⊆ positions.map UInt32.toNat := by
    intro index member
    have below := List.mem_range.mp member
    have toNatIs : index.toUInt32.toNat = index := by
      rw [Nat.toUInt32_eq, UInt32.toNat_ofNat', Nat.mod_eq_of_lt (by omega)]
    have present : index.toUInt32 ∈ positions :=
      Classical.byContradiction fun absent => full ⟨_, by rw [toNatIs]; exact below, absent⟩
    exact List.mem_map.mpr ⟨_, present, toNatIs⟩
  have tooMany := List.nodup_range.length_le_of_subset within
  rw [List.length_range, List.length_map] at tooMany
  omega

/-! ### The two loops of `Create` -/

section Stages

variable {dex : DexFile} {class_defs : List ClassDef} {mask_bits : UInt32}

/-- One pass of the first loop, with the hash and entry it computes named. -/
theorem CreateFirstStage_eq (entries : List Entry) (conflicts : List UInt16) (class_def_idx : Nat) :
    CreateFirstStage dex class_defs mask_bits (entries, conflicts) class_def_idx =
      if (entryAt entries (homePos dex class_defs mask_bits class_def_idx)).IsEmpty then
        (entries.set (homePos dex class_defs mask_bits class_def_idx).toNat
          (Entry.make (ClassStringId dex class_defs class_def_idx).string_data_off
            (classHash dex class_defs class_def_idx) class_def_idx.toUInt32 mask_bits), conflicts)
      else (entries, conflicts ++ [class_def_idx.toUInt16]) :=
  rfl

/-- One pass of the second loop, with the hash and entries it computes named. -/
theorem CreateSecondStage_eq (entries : List Entry) (class_def_idx : UInt16) :
    CreateSecondStage dex class_defs mask_bits entries class_def_idx =
      (walkUntil (NextPos (entryAt entries) mask_bits) (fun pos => (entryAt entries pos).IsLast mask_bits)
          (1 <<< mask_bits : UInt32).toNat (homePos dex class_defs mask_bits class_def_idx.toNat)).bind
        fun tail_pos =>
          (walkUntil (probeNext mask_bits) (fun pos => (entryAt entries pos).IsEmpty)
              (1 <<< mask_bits : UInt32).toNat (probeNext mask_bits tail_pos)).bind fun insert_pos =>
            some ((entries.set insert_pos.toNat
              (Entry.make (ClassStringId dex class_defs class_def_idx.toNat).string_data_off
                (classHash dex class_defs class_def_idx.toNat) class_def_idx.toUInt32 mask_bits)).modify
              tail_pos.toNat (·.SetNextPosDelta ((insert_pos - tail_pos) &&& Entry.GetMask mask_bits))) :=
  rfl

variable (dex class_defs mask_bits) in
/-- After the first loop has gone through the classes below `count`: each
class it placed sits at the entry its hash selects, each conflict's entry is
taken, and the placed classes and the conflicts are the classes below
`count`. -/
structure FirstStage (count : Nat) (state : List Entry × List UInt16)
    (placed : List (Nat × UInt32)) : Prop where
  layout : Layout dex class_defs mask_bits state.1 placed
  atHome : ∀ placement ∈ placed, placement.2 = homePos dex class_defs mask_bits placement.1
  classes : (placed.map Prod.fst ++ state.2.map UInt16.toNat).Perm (List.range count)
  taken : ∀ conflict ∈ state.2, homePos dex class_defs mask_bits conflict.toNat ∈ placed.map Prod.snd

theorem toNat_toUInt16_of_lt {count : Nat} (below : count < 65536) : count.toUInt16.toNat = count := by
  rw [Nat.toUInt16_eq, UInt16.toNat_ofNat', Nat.mod_eq_of_lt below]

/-- One pass of the first loop keeps `FirstStage`. -/
theorem FirstStage.step (small : mask_bits.toNat ≤ 16)
    (offsets : ∀ k < class_defs.length, (ClassStringId dex class_defs k).string_data_off ≠ 0)
    (fitsTable : class_defs.length ≤ 2 ^ mask_bits.toNat) (fitsIndex : class_defs.length ≤ 65535)
    {count : Nat} (exists_def : count < class_defs.length) {state : List Entry × List UInt16}
    {placed : List (Nat × UInt32)} (stage : FirstStage dex class_defs mask_bits count state placed) :
    ∃ placed', FirstStage dex class_defs mask_bits (count + 1)
      (CreateFirstStage dex class_defs mask_bits state count) placed' := by
  obtain ⟨entries, conflicts⟩ := state
  have fits : count < 2 ^ mask_bits.toNat := Nat.lt_of_lt_of_le exists_def fitsTable
  have fresh : count ∉ placed.map Prod.fst := fun member => by
    have seen := stage.classes.subset (List.mem_append_left _ member)
    exact Nat.lt_irrefl _ (List.mem_range.mp seen)
  rw [CreateFirstStage_eq]
  by_cases free : (entryAt entries (homePos dex class_defs mask_bits count)).IsEmpty = true
  · -- The entry is free: the class goes there, and its chain is itself.
    rw [if_pos free]
    have notPlaced : homePos dex class_defs mask_bits count ∉ placed.map Prod.snd := fun member => by
      obtain ⟨placement, placedAt, atHomePos⟩ := List.mem_map.mp member
      have full := stage.layout.isEmpty_placed offsets placedAt
      rw [atHomePos, free] at full
      exact Bool.noConfusion full
    refine ⟨placed ++ [(count, homePos dex class_defs mask_bits count)],
      stage.layout.place_home small stage.atHome fresh exists_def fits notPlaced, ?_, ?_, ?_⟩
    · intro placement member
      rcases List.mem_append.mp member with old | new
      · exact stage.atHome placement old
      · rw [List.mem_singleton.mp new]
    · rw [List.map_append, List.range_succ, List.append_assoc]
      exact (List.perm_append_comm.append_left _).trans
        ((List.append_assoc _ _ _).symm ▸ stage.classes.append_right [count])
    · intro conflict member
      rw [List.map_append]
      exact List.mem_append_left _ (stage.taken conflict member)
  · -- The entry is taken: the class waits for the second loop.
    rw [if_neg free]
    have occupied : homePos dex class_defs mask_bits count ∈ placed.map Prod.snd :=
      stage.layout.mem_of_isEmpty_eq_false (by simpa using free)
    have sameIndex := toNat_toUInt16_of_lt (by omega : count < 65536)
    refine ⟨placed, stage.layout, stage.atHome, ?_, ?_⟩
    · rw [List.map_append, List.map_singleton, sameIndex, List.range_succ, ← List.append_assoc]
      exact stage.classes.append_right [count]
    · intro conflict member
      rcases List.mem_append.mp member with old | new
      · exact stage.taken conflict old
      · rw [List.mem_singleton.mp new, sameIndex]
        exact occupied

/-- The first loop of `Create` over the classes below `count`. -/
theorem FirstStage.run (small : mask_bits.toNat ≤ 16)
    (offsets : ∀ k < class_defs.length, (ClassStringId dex class_defs k).string_data_off ≠ 0)
    (fitsTable : class_defs.length ≤ 2 ^ mask_bits.toNat) (fitsIndex : class_defs.length ≤ 65535) :
    ∀ count ≤ class_defs.length, ∃ placed, FirstStage dex class_defs mask_bits count
      ((List.range count).foldl (CreateFirstStage dex class_defs mask_bits)
        (List.replicate (2 ^ mask_bits.toNat) Entry.empty, [])) placed
  | 0, _ => ⟨[], layout_empty, fun _ absent => absurd absent List.not_mem_nil, List.Perm.refl _,
      fun _ absent => absurd absent List.not_mem_nil⟩
  | count + 1, within => by
    obtain ⟨placed, stage⟩ := FirstStage.run small offsets fitsTable fitsIndex count (by omega)
    rw [List.range_succ, List.foldl_append, List.foldl_cons, List.foldl_nil]
    exact stage.step small offsets fitsTable fitsIndex (by omega)

variable (dex class_defs mask_bits) in
/-- Before the second loop goes through the conflicts `remaining`: the placed
classes and `remaining` are all the classes, and the chain of the entry each
remaining class selects is not empty. -/
structure SecondStage (remaining : List UInt16) (entries : List Entry)
    (placed : List (Nat × UInt32)) : Prop where
  layout : Layout dex class_defs mask_bits entries placed
  classes : (placed.map Prod.fst ++ remaining.map UInt16.toNat).Perm (List.range class_defs.length)
  taken : ∀ conflict ∈ remaining,
    0 < (chain dex class_defs mask_bits placed (homePos dex class_defs mask_bits conflict.toNat)).length

theorem UInt16.toUInt32_eq_toNat_toUInt32 (index : UInt16) : index.toUInt32 = index.toNat.toUInt32 := by
  have below := index.toNat_lt
  apply UInt32.toNat_inj.mp
  rw [UInt16.toNat_toUInt32, Nat.toUInt32_eq, UInt32.toNat_ofNat', Nat.mod_eq_of_lt (by omega)]

/-- One pass of the second loop finds the end of the chain and a free entry,
and keeps `SecondStage`. -/
theorem SecondStage.step (small : mask_bits.toNat ≤ 16)
    (offsets : ∀ k < class_defs.length, (ClassStringId dex class_defs k).string_data_off ≠ 0)
    (fitsTable : class_defs.length ≤ 2 ^ mask_bits.toNat) {conflict : UInt16} {rest : List UInt16}
    {entries : List Entry} {placed : List (Nat × UInt32)}
    (stage : SecondStage dex class_defs mask_bits (conflict :: rest) entries placed) :
    ∃ entries' placed', CreateSecondStage dex class_defs mask_bits entries conflict = some entries' ∧
      SecondStage dex class_defs mask_bits rest entries' placed' := by
  have exists_def : conflict.toNat < class_defs.length :=
    List.mem_range.mp (stage.classes.subset (by simp))
  have fits : conflict.toNat < 2 ^ mask_bits.toNat := Nat.lt_of_lt_of_le exists_def fitsTable
  have fresh : conflict.toNat ∉ placed.map Prod.fst := fun member =>
    List.disjoint_of_nodup_append (stage.classes.nodup_iff.mpr List.nodup_range) member
      (by simp)
  have fuel : (1 <<< mask_bits : UInt32).toNat = 2 ^ mask_bits.toNat := toNat_one_shiftLeft small
  -- The walk to the last entry of the chain.
  have nonempty := stage.taken conflict (List.mem_cons_self ..)
  have chainFrom := stage.layout.chains (homePos dex class_defs mask_bits conflict.toNat)
  have chainShort := stage.layout.length_chain_le (homePos dex class_defs mask_bits conflict.toNat)
  generalize positionsIs :
    chain dex class_defs mask_bits placed (homePos dex class_defs mask_bits conflict.toNat) = positions
    at nonempty chainFrom chainShort
  have tailWalk : walkUntil (NextPos (entryAt entries) mask_bits)
      (fun pos => (entryAt entries pos).IsLast mask_bits) (2 ^ mask_bits.toNat) positions[0] =
        some positions[positions.length - 1] :=
    walkUntil_path chainFrom.linked (show positions.length - 1 < positions.length by omega)
    (by rw [chainFrom.last _ (by omega), decide_eq_true (by omega)]) (Nat.zero_le _)
    (show positions.length - 1 - 0 < 2 ^ mask_bits.toNat by omega)
    (fun t _ before => by rw [chainFrom.last t (by omega), decide_eq_false (by omega)])
  rw [chainFrom.starts nonempty] at tailWalk
  -- The probe for a free entry: the classes placed are fewer than the entries.
  have fewer : (placed.map Prod.snd).length < 2 ^ mask_bits.toNat := by
    have counted := stage.classes.length_eq
    simp only [List.length_append, List.length_map, List.length_cons, List.length_range] at counted
    rw [List.length_map]
    omega
  obtain ⟨freePos, freeInside, freeAbsent⟩ :=
    exists_free fewer (Nat.pow_le_pow_right (by decide) (by omega))
  have startInside : (probeNext mask_bits positions[positions.length - 1]).toNat < 2 ^ mask_bits.toNat :=
    toNat_and_GetMask_lt small _
  obtain ⟨steps, within, reaches⟩ := probeNext_reaches small startInside freeInside
  have freeEmpty : (entryAt entries ((probeNext mask_bits)^[steps]
      (probeNext mask_bits positions[positions.length - 1]))).IsEmpty = true := by
    rw [reaches, stage.layout.empty freePos freeAbsent]
    rfl
  obtain ⟨insert_pos, insertWalk, insertEmpty⟩ : ∃ insert_pos,
      walkUntil (probeNext mask_bits) (fun pos => (entryAt entries pos).IsEmpty) (2 ^ mask_bits.toNat)
        (probeNext mask_bits positions[positions.length - 1]) = some insert_pos ∧
      (entryAt entries insert_pos).IsEmpty = true :=
    walkUntil_isSome_of_iterate within freeEmpty
  have insertInside : insert_pos.toNat < 2 ^ mask_bits.toNat :=
    walkUntil_invariant (fun pos => pos.toNat < 2 ^ mask_bits.toNat)
      (fun pos _ => toNat_and_GetMask_lt small (pos + 1)) startInside insertWalk
  have insertFree : insert_pos ∉ placed.map Prod.snd := fun member => by
    obtain ⟨placement, placedAt, atInsert⟩ := List.mem_map.mp member
    have full := stage.layout.isEmpty_placed offsets placedAt
    rw [atInsert, insertEmpty] at full
    exact Bool.noConfusion full
  refine ⟨(entries.set insert_pos.toNat
      (Entry.make (ClassStringId dex class_defs conflict.toNat).string_data_off
        (classHash dex class_defs conflict.toNat) conflict.toUInt32 mask_bits)).modify
      positions[positions.length - 1].toNat
      (·.SetNextPosDelta ((insert_pos - positions[positions.length - 1]) &&& Entry.GetMask mask_bits)),
    placed ++ [(conflict.toNat, insert_pos)], ?_, ⟨?_, ?_, ?_⟩⟩
  · rw [CreateSecondStage_eq, fuel, tailWalk, Option.bind_some, insertWalk, Option.bind_some]
  · rw [UInt16.toUInt32_eq_toNat_toUInt32]
    exact stage.layout.append_chain small fresh exists_def fits rfl
      (by rw [positionsIs, List.getLast?_eq_getElem?, List.getElem?_eq_getElem]) insertInside insertFree
  · rw [List.map_append, List.map_singleton, List.append_assoc]
    exact stage.classes
  · intro other member
    rw [chain_append, List.length_append]
    exact Nat.lt_of_lt_of_le (stage.taken other (List.mem_cons_of_mem _ member)) (Nat.le_add_right _ _)

/-- The second loop of `Create` over the conflicts `remaining` places them
all. -/
theorem SecondStage.run (small : mask_bits.toNat ≤ 16)
    (offsets : ∀ k < class_defs.length, (ClassStringId dex class_defs k).string_data_off ≠ 0)
    (fitsTable : class_defs.length ≤ 2 ^ mask_bits.toNat) :
    ∀ (remaining : List UInt16) {entries : List Entry} {placed : List (Nat × UInt32)},
      SecondStage dex class_defs mask_bits remaining entries placed →
      ∃ entries' placed', remaining.foldlM (CreateSecondStage dex class_defs mask_bits) entries = some entries' ∧
        Layout dex class_defs mask_bits entries' placed' ∧
        (placed'.map Prod.fst).Perm (List.range class_defs.length)
  | [], entries, placed, stage => ⟨entries, placed, rfl, stage.layout, by simpa using stage.classes⟩
  | conflict :: rest, _, _, stage => by
    obtain ⟨next, placed', stepped, stage'⟩ := stage.step small offsets fitsTable
    obtain ⟨final, placedFinal, ran, layout, classes⟩ := SecondStage.run small offsets fitsTable rest stage'
    refine ⟨final, placedFinal, ?_, layout, classes⟩
    rw [List.foldlM_cons, stepped]
    exact ran

/-! ### The number of mask bits -/

section MaskBits

variable {num_class_defs : Nat}

end MaskBits

end Stages

/-! ### `Lookup` on a layout -/

section Lookup

variable {dex : DexFile} {class_defs : List ClassDef} {mask_bits : UInt32} {entries : List Entry}
  {placed : List (Nat × UInt32)}

end Lookup

end TypeLookupTable

end ArtRuntime.Dex
